import Mathlib.Tactic

/-!
# Cells copied one at a time

A list of copies, each of which reads one cell and writes a set of cells, changes the memory step by step.  If no cell
is read after it was written, the outcome is that of copying everything at once.
-/

namespace Luwu.Copies

variable {ι L V : Type*}

/-- No cell is read after it was written, and none is written twice. -/
structure Ordered (reads : ι → L) (writes : ι → L → Prop) (is : List ι) : Prop where
  reads : is.Pairwise fun i j => ¬writes i (reads j)
  writes : is.Pairwise fun i j => ∀ l, writes i l → ¬writes j l

theorem Ordered.tail {reads : ι → L} {writes : ι → L → Prop} {is : List ι} {i : ι}
    (h : Ordered reads writes (i :: is)) : Ordered reads writes is :=
  ⟨h.reads.of_cons, h.writes.of_cons⟩

variable (reads : ι → L) (writes : ι → L → Prop) [∀ i l, Decidable (writes i l)]

def copy (g : L → V) (i : ι) : L → V := fun l => if writes i l then g (reads i) else g l

def copyAll (g : L → V) (is : List ι) : L → V := is.foldl (copy reads writes) g

variable {reads writes} {g : L → V} {is : List ι} {i : ι} {l : L}

theorem copy_of_writes (h : writes i l) : copy reads writes g i l = g (reads i) := if_pos h

theorem copy_of_not_writes (h : ¬writes i l) : copy reads writes g i l = g l := if_neg h

/-- A cell that is not written keeps its value. -/
theorem copyAll_of_not_writes (h : ∀ i ∈ is, ¬writes i l) : copyAll reads writes g is l = g l := by
  induction is generalizing g with
  | nil => rfl
  | cons i is ih =>
    have hrest : copyAll reads writes (copy reads writes g i) is l = copy reads writes g i l :=
      ih fun j hj => h j (List.mem_cons_of_mem i hj)
    exact hrest.trans (copy_of_not_writes (h i List.mem_cons_self))

/-- **A cell that is written** has the value that its source had at first. -/
theorem copyAll_of_writes (h : Ordered reads writes is) (hi : i ∈ is) (hl : writes i l) :
    copyAll reads writes g is l = g (reads i) := by
  induction is generalizing g with
  | nil => cases hi
  | cons j is ih =>
    rcases List.mem_cons.mp hi with rfl | hmem
    · -- no later copy writes the cell again
      have hrest : copyAll reads writes (copy reads writes g i) is l = copy reads writes g i l :=
        copyAll_of_not_writes fun k hk => (List.pairwise_cons.mp h.writes).1 k hk l hl
      exact hrest.trans (copy_of_writes hl)
    · -- the first copy has not touched the source
      have hsource : ¬writes j (reads i) := (List.pairwise_cons.mp h.reads).1 i hmem
      exact (ih h.tail hmem).trans (copy_of_not_writes hsource)

end Luwu.Copies
