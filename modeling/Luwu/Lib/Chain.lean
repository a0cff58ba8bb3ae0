import Mathlib.Data.List.Nodup
import Mathlib.Logic.Function.Basic

/-!
# Singly linked lists

`Chain nxt head xs` says that the links, entered at `head`, visit `xs` and stop.  A node goes in between
two parts of a chain and goes out again by an edit of one link, that of the node in front or the head.
-/

namespace Luwu.Chains

variable {ι : Type*}

/-- Entered at `head`, the links visit `xs` in order and stop. -/
def Chain (nxt : ι → Option ι) : Option ι → List ι → Prop
  | head, [] => head = none
  | head, x :: xs => head = some x ∧ Chain nxt (nxt x) xs

theorem Chain.congr {nxt nxt' : ι → Option ι} {head : Option ι} {xs : List ι}
    (h : Chain nxt head xs) (he : ∀ x ∈ xs, nxt' x = nxt x) : Chain nxt' head xs := by
  induction xs generalizing head with
  | nil => exact h
  | cons x xs ih =>
    refine ⟨h.1, ?_⟩
    rw [he x List.mem_cons_self]
    exact ih h.2 (fun y hy => he y (List.mem_cons_of_mem x hy))

theorem Chain.head_eq {nxt : ι → Option ι} {head : Option ι} {xs : List ι} (h : Chain nxt head xs) :
    head = xs.head? := by
  cases xs with
  | nil => exact h
  | cons x xs => exact h.1

/-- The nodes are determined by the links and the head. -/
theorem Chain.unique {nxt : ι → Option ι} {head : Option ι} {xs ys : List ι} (hx : Chain nxt head xs)
    (hy : Chain nxt head ys) : xs = ys := by
  induction xs generalizing head ys with
  | nil =>
    cases ys with
    | nil => rfl
    | cons y ys => exact absurd (hy.1.symm.trans hx) (Option.some_ne_none y)
  | cons x xs ih =>
    cases ys with
    | nil => exact absurd (hx.1.symm.trans hy) (Option.some_ne_none x)
    | cons y ys =>
      obtain rfl : x = y := Option.some.inj (hx.1.symm.trans hy.1)
      rw [ih hx.2 hy.2]

theorem Chain.next_of_append {nxt : ι → Option ι} {head : Option ι} {pre post : List ι} {x : ι}
    (h : Chain nxt head (pre ++ x :: post)) : nxt x = post.head? := by
  induction pre generalizing head with
  | nil => exact h.2.head_eq
  | cons y pre ih => exact ih h.2

/-- A node put in between `pre` and `post`. -/
theorem Chain.insert {nxt nxt' : ι → Option ι} {head head' : Option ι} {pre post : List ι} {x : ι}
    (h : Chain nxt head (pre ++ post)) (hx : nxt' x = post.head?) (hnd : (pre ++ post).Nodup)
    (hn : ∀ y ∈ pre ++ post, pre.getLast? ≠ some y → nxt' y = nxt y)
    (hlast : ∀ y, pre.getLast? = some y → nxt' y = some x)
    (hhead : head' = if pre = [] then some x else head) :
    Chain nxt' head' (pre ++ x :: post) := by
  induction pre generalizing head head' with
  | nil =>
    refine ⟨hhead, ?_⟩
    have hpost : Chain nxt' head post :=
      Chain.congr h (fun y hy => hn y hy (fun he => Option.some_ne_none y he.symm))
    have hhd : nxt' x = head := hx.trans h.head_eq.symm
    rw [hhd]
    exact hpost
  | cons z zs ih =>
    obtain ⟨h1, h2⟩ := h
    refine ⟨hhead.trans h1, ih h2 (List.nodup_cons.mp hnd).2 ?_ ?_ ?_⟩
    · intro y hy hne
      apply hn y (List.mem_cons_of_mem z hy)
      cases zs with
      | nil =>
        intro he
        obtain rfl := Option.some.inj he
        exact (List.nodup_cons.mp hnd).1 hy
      | cons w ws => exact hne
    · intro y hy
      apply hlast y
      cases zs with
      | nil => cases hy
      | cons w ws => exact hy
    · cases zs with
      | nil => exact hlast z rfl
      | cons w ws =>
        have hz : (z :: w :: ws).getLast? ≠ some z := by
          intro he
          have hmem : z ∈ w :: ws := List.mem_of_getLast? he
          exact (List.nodup_cons.mp hnd).1 (List.mem_append_left _ hmem)
        exact hn z List.mem_cons_self hz

/-- A node taken out from between `pre` and `post`. -/
theorem Chain.remove {nxt nxt' : ι → Option ι} {head head' : Option ι} {pre post : List ι} {x : ι}
    (h : Chain nxt head (pre ++ x :: post)) (hnd : (pre ++ x :: post).Nodup)
    (hn : ∀ y ∈ pre ++ post, pre.getLast? ≠ some y → nxt' y = nxt y)
    (hlast : ∀ y, pre.getLast? = some y → nxt' y = nxt x)
    (hhead : head' = if pre = [] then nxt x else head) : Chain nxt' head' (pre ++ post) := by
  induction pre generalizing head head' with
  | nil =>
    rw [hhead]
    exact Chain.congr h.2 (fun y hy => hn y hy (fun he => Option.some_ne_none y he.symm))
  | cons z zs ih =>
    obtain ⟨h1, h2⟩ := h
    obtain ⟨hz, hnd'⟩ := List.nodup_cons.mp hnd
    refine ⟨hhead.trans h1, ih h2 hnd' ?_ ?_ ?_⟩
    · intro y hy hne
      apply hn y (List.mem_cons_of_mem z hy)
      cases zs with
      | nil =>
        intro he
        obtain rfl := Option.some.inj he
        exact hz (List.mem_cons_of_mem x hy)
      | cons w ws => exact hne
    · intro y hy
      apply hlast y
      cases zs with
      | nil => cases hy
      | cons w ws => exact hy
    · cases zs with
      | nil => exact hlast z rfl
      | cons w ws =>
        have hzl : (z :: w :: ws).getLast? ≠ some z := by
          intro he
          have hmem : z ∈ w :: ws := List.mem_of_getLast? he
          exact hz (List.mem_append_left _ hmem)
        exact hn z List.mem_cons_self hzl

end Luwu.Chains

/-!
## Slot stores

A slot store hands out slots and takes them back; the slots it took back are threaded into a free list
through their own storage.  A `Ledger` says of every slot whether it was ever handed out, and for what.
`Threads` says that the free list consists of exactly the slots that were taken back, each once; the
three edits of a ledger (a new slot, a reused slot, a slot taken back) keep it.
-/

namespace Luwu.SlotStore

open Function Luwu.Chains

variable {ι α : Type*} [DecidableEq ι]

/-- What became of a slot. -/
inductive Holding (α : Type*) where
  | unused
  | held (a : α)
  | released
  deriving DecidableEq

abbrev Ledger (ι α : Type*) := ι → Holding α

/-- The free list holds exactly the released slots, each once. -/
structure Threads (L : Ledger ι α) (nxt : ι → Option ι) (head : Option ι) (xs : List ι) : Prop where
  chain : Chain nxt head xs
  nodup : xs.Nodup
  mem_iff : ∀ x, x ∈ xs ↔ L x = .released

variable {L : Ledger ι α} {nxt nxt' : ι → Option ι} {head : Option ι} {xs : List ι} {x : ι} {a : α}

omit [DecidableEq ι] in
theorem Threads.empty (h : Threads L nxt none xs) : xs = [] := by
  cases xs with
  | nil => rfl
  | cons x xs => cases h.chain.1

omit [DecidableEq ι] in
/-- The head of the free list is a released slot, and the rest follows its link. -/
theorem Threads.uncons (h : Threads L nxt (some x) xs) :
    L x = .released ∧ ∃ ys, xs = x :: ys ∧ Chain nxt (nxt x) ys := by
  cases xs with
  | nil => cases h.chain
  | cons y ys =>
    obtain ⟨hx, hrest⟩ := h.chain
    obtain rfl := Option.some.inj hx
    exact ⟨(h.mem_iff x).mp List.mem_cons_self, ys, rfl, hrest⟩

/-- The head of the free list is handed out again. -/
theorem Threads.reuse (h : Threads L nxt (some x) xs) (hn : ∀ y, y ≠ x → nxt' y = nxt y) :
    ∃ ys, Threads (update L x (.held a)) nxt' (nxt x) ys := by
  obtain ⟨_, ys, rfl, hrest⟩ := h.uncons
  obtain ⟨hx, hnd⟩ := List.nodup_cons.mp h.nodup
  refine ⟨ys, hrest.congr (fun y hy => hn y (fun he => hx (he ▸ hy))), hnd, fun y => ?_⟩
  by_cases hy : y = x
  · subst hy
    rw [update_self]
    exact iff_of_false hx (fun h => by cases h)
  · rw [update_of_ne hy, ← h.mem_iff, List.mem_cons, or_iff_right hy]

/-- A slot that was never used is handed out. -/
theorem Threads.issue (h : Threads L nxt head xs) (hx : L x = .unused)
    (hn : ∀ y, y ≠ x → nxt' y = nxt y) : Threads (update L x (.held a)) nxt' head xs := by
  have hmem : x ∉ xs := fun hm => by
    rw [(h.mem_iff x).mp hm] at hx
    cases hx
  refine ⟨h.chain.congr (fun y hy => hn y (fun he => hmem (he ▸ hy))), h.nodup, fun y => ?_⟩
  by_cases hy : y = x
  · subst hy
    rw [update_self]
    exact iff_of_false hmem (fun h => by cases h)
  · rw [update_of_ne hy, h.mem_iff]

/-- A slot in use is taken back: it becomes the head. -/
theorem Threads.release (h : Threads L nxt head xs) (hx : L x = .held a) (hlink : nxt' x = head)
    (hn : ∀ y, y ≠ x → nxt' y = nxt y) :
    Threads (update L x .released) nxt' (some x) (x :: xs) := by
  have hmem : x ∉ xs := fun hm => by
    rw [(h.mem_iff x).mp hm] at hx
    cases hx
  refine ⟨⟨rfl, ?_⟩, List.nodup_cons.mpr ⟨hmem, h.nodup⟩, fun y => ?_⟩
  · rw [hlink]
    exact h.chain.congr (fun y hy => hn y (fun he => hmem (he ▸ hy)))
  · by_cases hy : y = x
    · subst hy
      rw [update_self]
      exact iff_of_true List.mem_cons_self rfl
    · rw [update_of_ne hy, List.mem_cons, or_iff_right hy, h.mem_iff]

omit [DecidableEq ι] in
/-- What is held may change, and so may the storage of slots in use. -/
theorem Threads.edit {L' : Ledger ι α} (h : Threads L nxt head xs)
    (hL : ∀ y, L' y = .released ↔ L y = .released) (hn : ∀ y, L y = .released → nxt' y = nxt y) :
    Threads L' nxt' head xs :=
  ⟨h.chain.congr (fun y hy => hn y ((h.mem_iff y).mp hy)), h.nodup,
    fun y => (h.mem_iff y).trans (hL y).symm⟩

end Luwu.SlotStore

/-!
## Hash chains

A chained hash table: every bucket is the head of a singly linked list, and `Bucketed` says that these
lists hold the members, each in its own bucket and once.  A member goes in at the front of its bucket and
goes out from anywhere.
-/

namespace Luwu.HashChains

open Luwu.Chains

variable {ι β : Type*} {nxt nxt' : ι → Option ι} {head head' : β → Option ι} {bucket bucket' : ι → β}
  {bs : β → Prop} {ms : List ι} {x : ι}

/-- The chain of every bucket holds the members of the bucket. -/
def Bucketed (nxt : ι → Option ι) (head : β → Option ι) (bucket : ι → β) (bs : β → Prop)
    (ms : List ι) : Prop :=
  ∀ b, bs b → ∃ xs, Chain nxt (head b) xs ∧ xs.Nodup ∧ ∀ y, y ∈ xs ↔ y ∈ ms ∧ bucket y = b

theorem bucketed_nil (h : ∀ b, bs b → head b = none) : Bucketed nxt head bucket bs [] := by
  intro b hb
  exact ⟨[], h b hb, List.nodup_nil, fun y => iff_of_false List.not_mem_nil (fun hy => List.not_mem_nil hy.1)⟩

/-- Only the links of the members in the buckets matter, and who the members are. -/
theorem Bucketed.congr {ms' : List ι} (h : Bucketed nxt head bucket bs ms)
    (hn : ∀ y ∈ ms, bs (bucket y) → nxt' y = nxt y) (hh : ∀ b, bs b → head' b = head b)
    (hb : ∀ y ∈ ms, bucket' y = bucket y) (hm : ∀ y, y ∈ ms' ↔ y ∈ ms) :
    Bucketed nxt' head' bucket' bs ms' := by
  intro b hbs
  obtain ⟨xs, hc, hnd, hx⟩ := h b hbs
  refine ⟨xs, ?_, hnd, fun y => ?_⟩
  · rw [hh b hbs]
    apply hc.congr
    intro y hy
    obtain ⟨hym, rfl⟩ := (hx y).mp hy
    exact hn y hym hbs
  · rw [hx, hm]
    exact and_congr_right (fun hy => by rw [hb y hy])

/-- A member put in at the front of its bucket. -/
theorem Bucketed.insert [DecidableEq β] (h : Bucketed nxt head bucket bs ms) (hx : x ∉ ms)
    (hnx : nxt' x = head (bucket x)) (hn : ∀ y ∈ ms, nxt' y = nxt y)
    (hh : ∀ b, bs b → head' b = if b = bucket x then some x else head b) :
    Bucketed nxt' head' bucket bs (x :: ms) := by
  intro b hbs
  obtain ⟨xs, hc, hnd, hxs⟩ := h b hbs
  have hc' : Chain nxt' (head b) xs := hc.congr (fun y hy => hn y ((hxs y).mp hy).1)
  have hxxs : x ∉ xs := fun hm => hx ((hxs x).mp hm).1
  by_cases hb : b = bucket x
  · refine ⟨x :: xs, ?_, List.nodup_cons.mpr ⟨hxxs, hnd⟩, fun y => ?_⟩
    · rw [hh b hbs, if_pos hb]
      refine ⟨rfl, ?_⟩
      rw [hnx, ← hb]
      exact hc'
    · rw [List.mem_cons, hxs, List.mem_cons]
      constructor
      · rintro (rfl | ⟨hy, hyb⟩)
        · exact ⟨Or.inl rfl, hb.symm⟩
        · exact ⟨Or.inr hy, hyb⟩
      · rintro ⟨rfl | hy, hyb⟩
        · exact Or.inl rfl
        · exact Or.inr ⟨hy, hyb⟩
  · refine ⟨xs, ?_, hnd, fun y => ?_⟩
    · rw [hh b hbs, if_neg hb]
      exact hc'
    · rw [hxs, List.mem_cons]
      constructor
      · rintro ⟨hy, hyb⟩
        exact ⟨Or.inr hy, hyb⟩
      · rintro ⟨rfl | hy, hyb⟩
        · exact absurd hyb.symm hb
        · exact ⟨hy, hyb⟩

/-- A member taken out of its bucket, where it stands between `pre` and `post`. -/
theorem Bucketed.remove [DecidableEq ι] [DecidableEq β] {pre post : List ι}
    (h : Bucketed nxt head bucket bs ms) (hms : ms.Nodup) (hx : x ∈ ms) (hbx : bs (bucket x))
    (hc : Chain nxt (head (bucket x)) (pre ++ x :: post))
    (hn : ∀ y ∈ ms, y ≠ x → pre.getLast? ≠ some y → nxt' y = nxt y)
    (hlast : ∀ y, pre.getLast? = some y → nxt' y = nxt x)
    (hh : ∀ b, bs b → head' b = if b = bucket x ∧ pre = [] then nxt x else head b) :
    Bucketed nxt' head' bucket bs (ms.erase x) := by
  intro b hbs
  obtain ⟨xs, hcb, hnd, hxs⟩ := h b hbs
  by_cases hb : b = bucket x
  · subst hb
    obtain rfl : xs = pre ++ x :: post := hcb.unique hc
    have hsplit : ∀ y, y ∈ pre ++ post ↔ y ∈ pre ++ x :: post ∧ y ≠ x := by
      intro y
      have hxpre : x ∉ pre ++ post := by
        have hperm : (pre ++ x :: post).Perm (x :: (pre ++ post)) := List.perm_middle
        exact (List.nodup_cons.mp (hperm.nodup_iff.mp hnd)).1
      simp only [List.mem_append, List.mem_cons] at hxpre ⊢
      constructor
      · intro hy
        refine ⟨by tauto, ?_⟩
        rintro rfl
        exact hxpre hy
      · tauto
    refine ⟨pre ++ post, ?_, ?_, fun y => ?_⟩
    · apply hcb.remove hnd
      · intro y hy hyl
        obtain ⟨hym, hyx⟩ := (hsplit y).mp hy
        exact hn y ((hxs y).mp hym).1 hyx hyl
      · exact hlast
      · rw [hh _ hbs]
        by_cases hnil : pre = []
        · rw [if_pos ⟨rfl, hnil⟩, if_pos hnil]
        · rw [if_neg (fun hc => hnil hc.2), if_neg hnil]
    · have hperm : (pre ++ x :: post).Perm (x :: (pre ++ post)) := List.perm_middle
      exact (List.nodup_cons.mp (hperm.nodup_iff.mp hnd)).2
    · rw [hsplit, hxs, List.Nodup.mem_erase_iff hms]
      tauto
  · refine ⟨xs, ?_, hnd, fun y => ?_⟩
    · rw [hh b hbs, if_neg (fun hc => hb hc.1)]
      apply hcb.congr
      intro y hy
      obtain ⟨hym, hyb⟩ := (hxs y).mp hy
      apply hn y hym
      · rintro rfl
        exact hb hyb.symm
      · intro hlast
        have hyx : y ∈ pre ++ x :: post := List.mem_append_left _ (List.mem_of_getLast? hlast)
        obtain ⟨zs, hcz, _, hzs⟩ := h _ hbx
        obtain rfl : zs = pre ++ x :: post := hcz.unique hc
        exact hb (hyb.symm.trans ((hzs y).mp hyx).2)
    · rw [hxs, List.Nodup.mem_erase_iff hms]
      constructor
      · rintro ⟨hy, hyb⟩
        refine ⟨⟨?_, hy⟩, hyb⟩
        rintro rfl
        exact hb hyb.symm
      · rintro ⟨⟨_, hy⟩, hyb⟩
        exact ⟨hy, hyb⟩

end Luwu.HashChains
