import Luwu.TopoSort.Sort

/-!
# What `toposort` keeps

Order arcs are always respected, so all statements but functions and type aliases stay in lexical order. Without calls the
last drain respects all arcs when they have no cycle. A terminator with a call is a target of `drain`, which may leave
statements in the queue.
-/

namespace Luwu.TopoSort

open Luwu.Precedence

variable {block : List Ast} {s t : Sorting} {d d' : Draining} {keys : ℕ → Bool} {i j k n : ℕ} {order : List ℕ}

/-- The second statement depends on the first in a graph. -/
def Graph.Depends (g : Graph) (i j : ℕ) : Prop := j ∈ g.depends i

/-- The order of a block: a permutation with the terminator last and other statements in lexical order, in which without calls
every statement comes after those it depends on, if that is possible. -/
structure Sorted (block : List Ast) (order : List ℕ) : Prop where
  perm : order.Perm (List.range block.length)
  terminator : ∀ i, isBlockTerminator block i → order.getLast? = some i
  lexical : After (fun j i => i < j ∧ isStat block i ∧ isStat block j) order
  dependencies : Acyclic (graph block).Depends → (∀ i, ¬containsFunctionCall block i) → After (graph block).Depends order

/-- When a terminator with a call is drained, it depends on a statement of the queue until the queue is empty. -/
def TerminatorWaits (block : List Ast) : Prop :=
  containsToposortableNode block → ∀ T s, T + 1 = block.length → isBlockTerminator block T → containsFunctionCall block T →
    (List.range T).foldlM (sortStep block) (startSort block) = some s →
    ∀ d, Relation.ReflTransGen (Turn block (keysOf s.Q)) (startDrain s) d → d.Q ≠ [] → d.graph.depends T ≠ ∅

/-! ### Lexical order -/

theorem isStat_prevAt (h : 0 < prevAt block i) : isStat block (prevAt block i) = true := by
  induction i with
  | zero => exact absurd h (lt_irrefl 0)
  | succ i ih =>
    rw [prevAt] at h ⊢
    by_cases hi : isStat block i = true
    · rw [if_pos hi]
      exact hi
    · rw [if_neg hi] at h ⊢
      exact ih h

/-- Order arcs lead from a statement to all earlier ones. -/
theorem orderArcs_reach (hi : isStat block i = true) (hj : isStat block j = true) (hij : i < j) :
    Relation.TransGen (OrderArc block) j i := by
  induction j using Nat.strong_induction_on with
  | _ j ih =>
    have hpos : 0 < j := by omega
    have harc : OrderArc block j (prevAt block j) := ⟨hj, hpos, rfl⟩
    rcases (le_prevAt hi hij).eq_or_lt with heq | hlt
    · rw [← heq] at harc
      exact Relation.TransGen.single harc
    · exact Relation.TransGen.head harc (ih (prevAt block j) (prevAt_lt hpos) (isStat_prevAt (by omega)) hlt)

theorem lexical_of_ordered (h : After (OrderArc block) order) :
    After (fun j i => i < j ∧ isStat block i ∧ isStat block j) order :=
  h.transGen.mono fun _ _ _ hij => orderArcs_reach hij.2.1 hij.2.2 hij.1

/-! ### Dependencies -/

/-- Without calls nothing but the last drain takes a statement from the queue. -/
theorem sort_depends (hcalls : ∀ i, ¬containsFunctionCall block i) (k : ℕ) :
    ∀ s, (List.range k).foldlM (sortStep block) (startSort block) = some s → After (graph block).Depends s.result := by
  induction k with
  | zero =>
    intro s hrun
    obtain rfl := Option.some.inj hrun
    exact after_nil _
  | succ k ih =>
    intro t hrun
    obtain ⟨s, hs, hsound⟩ := sort_spec block k
    rw [sort_succ, hs] at hrun
    change sortStep block s k = some t at hrun
    unfold sortStep at hrun
    by_cases hdirect : s.graph.depends k = ∅ ∧ ¬isBlockTerminator block k = true
    · rw [if_pos hdirect] at hrun
      have hnot : k ∉ s.result := fun hk => absurd (hsound.mem.mpr (Or.inl hk)) (lt_irrefl k)
      have hready : ∀ b, (graph block).Depends k b → b ∈ s.result := fun b hb => hsound.depends_mem hnot hdirect.1 hb
      obtain ⟨g, hemit, -⟩ := hsound.emit fun b harc => hready b ((mem_graph k b).mpr (Or.inr harc))
      obtain rfl := Option.some.inj (hemit.symm.trans hrun)
      exact (ih s hs).concat hready
    · rw [if_neg hdirect, if_pos (hcalls k)] at hrun
      obtain rfl := Option.some.inj hrun
      exact ih s hs

/-- In the last drain a node is found as long as there are other statements than the terminator. -/
theorem turn_depends (hlast : ∀ i, isBlockTerminator block i → i + 1 = block.length) (hacyclic : Acyclic (graph block).Depends)
    (h : DrainSound block block.length keys d) (hdone : After (graph block).Depends d.result)
    (hturn : Turn block keys d d') : After (graph block).Depends d'.result := by
  obtain ⟨next, g, arcs, hrun, hmem, -, hcase⟩ := turn_spec h hturn.1
  obtain rfl := Option.some.inj (hrun.symm.trans hturn.2)
  -- What is not in the result is in the copy of the arcs.
  have hcopy : ∀ a ∈ d.Q, ∀ b, (graph block).Depends a b → b ∉ d.result → b ∈ d.allArcs.depends a ∧ b ∈ d.Q := by
    intro a ha b hb hnot
    have hlt := (graph_range hb).2.1
    have hkey : keys b = true := by
      by_contra hkey
      exact hnot (h.others b hlt (Bool.not_eq_true _ ▸ hkey))
    exact ⟨((h.arcs a (h.isKey a ha) (h.not_mem_result ha)).1 b).mpr ⟨hb, hnot, hkey⟩,
      (h.mem.mp hlt).resolve_left hnot⟩
  refine hdone.concat fun b hb => ?_
  by_contra hnot
  obtain ⟨hdepends, hQ⟩ := hcopy next hmem b hb hnot
  rcases hcase with ⟨-, hempty⟩ | ⟨-, hall⟩
  · rw [hempty] at hdepends
    exact Finset.notMem_empty b hdepends
  · have hfree : ∀ a ∈ d.Q, isBlockTerminator block a = false → False := by
      intro a ha hterm
      obtain ⟨c, hc, hsource⟩ := exists_source hacyclic (d.Q.filter (!isBlockTerminator block ·)).toFinset
        ⟨a, List.mem_toFinset.mpr (List.mem_filter.mpr ⟨ha, by rw [hterm]; rfl⟩)⟩
      obtain ⟨hcQ, hcterm⟩ := List.mem_filter.mp (List.mem_toFinset.mp hc)
      have hne := (hall c hcQ).resolve_left (by rwa [Bool.not_eq_true, ← Bool.not_eq_true'])
      obtain ⟨x, hx⟩ := Finset.nonempty_iff_ne_empty.mpr hne
      obtain ⟨hxc, hxnot, -⟩ := ((h.arcs c (h.isKey c hcQ) (h.not_mem_result hcQ)).1 x).mp hx
      have hxQ := (hcopy c hcQ x hxc hxnot).2
      refine hsource x (List.mem_toFinset.mpr (List.mem_filter.mpr ⟨hxQ, ?_⟩)) hxc
      rw [Bool.not_eq_true']
      by_contra hxterm
      rw [Bool.not_eq_false] at hxterm
      exact terminator_provides hxterm (hlast x hxterm) hxc
    cases hterm : isBlockTerminator block b with
    | false => exact hfree b hQ hterm
    | true => exact terminator_provides hterm (hlast b hterm) hb

/-! ### The terminator -/

/-- A terminator in the queue is taken last. -/
theorem turn_terminator (hT : isBlockTerminator block i = true) (hlast : i + 1 = block.length)
    (h : DrainSound block block.length keys d) (hmem : i ∈ d.Q) (hturn : Turn block keys d d') :
    i ∈ d'.Q ∨ d'.Q = [] ∧ d'.result.getLast? = some i := by
  obtain ⟨next, g, arcs, hrun, -, -, hcase⟩ := turn_spec h hturn.1
  obtain rfl := Option.some.inj (hrun.symm.trans hturn.2)
  by_cases hnext : next = i
  · subst hnext
    rcases hcase with ⟨hterm, -⟩ | ⟨hhead, -⟩
    · rw [hT] at hterm
      cases hterm
    · obtain ⟨rest, hQ⟩ := List.head?_eq_some_iff.mp hhead
      have hrest : rest = [] := by
        rw [List.eq_nil_iff_forall_not_mem]
        intro b hb
        have hsorted := h.sorted
        rw [hQ] at hsorted
        have hlt := (List.pairwise_cons.mp hsorted).1 b hb
        have hrange : b < block.length := by
          apply h.mem.mpr
          rw [hQ]
          exact Or.inr (List.mem_cons_of_mem _ hb)
        omega
      refine Or.inr ⟨?_, List.getLast?_concat⟩
      show d.Q.erase next = []
      rw [hQ, hrest, List.erase_cons_head]
  · exact Or.inl ((List.mem_erase_of_ne (Ne.symm hnext)).mpr hmem)

theorem turns_terminator (hT : isBlockTerminator block i = true) (hlast : i + 1 = block.length)
    (h : DrainSound block block.length keys d) (hmem : i ∈ d.Q) (hturns : Relation.ReflTransGen (Turn block keys) d d')
    (hQ : d'.Q = []) : d'.result.getLast? = some i := by
  induction hturns using Relation.ReflTransGen.head_induction_on with
  | refl =>
    rw [hQ] at hmem
    exact absurd hmem List.not_mem_nil
  | head hturn hrest ih =>
    rcases turn_terminator hT hlast h hmem hturn with hmem' | ⟨hQ', hresult⟩
    · exact ih (hturn.sound h) hmem'
    · rcases hrest.cases_head with rfl | ⟨_, hturn', -⟩
      · exact hresult
      · exact absurd hQ' hturn'.1

/-- The result only grows. -/
theorem turns_prefix (h : DrainSound block k keys d) (hturns : Relation.ReflTransGen (Turn block keys) d d') :
    d.result <+: d'.result := by
  induction hturns using Relation.ReflTransGen.head_induction_on with
  | refl => exact List.prefix_rfl
  | head hturn _ ih =>
    obtain ⟨next, g, arcs, hrun, -, hsound, -⟩ := turn_spec h hturn.1
    obtain rfl := Option.some.inj (hrun.symm.trans hturn.2)
    exact (List.prefix_append _ _).trans (ih hsound)

/-- The terminator is last exactly when it is not drained with statements left in the queue. -/
theorem sort_terminator (hT : isBlockTerminator block i = true) (hlast : i + 1 = block.length)
    (hs : (List.range block.length).foldlM (sortStep block) (startSort block) = some s) (hsound : Sound block block.length s)
    (hd : Relation.ReflTransGen (Turn block (keysOf s.Q)) (startDrain s) d) (hQ : d.Q = []) :
    d.result.getLast? = some i ↔
      (containsFunctionCall block i → ∀ s, (List.range i).foldlM (sortStep block) (startSort block) = some s →
        ∀ d, Relation.ReflTransGen (Turn block (keysOf s.Q)) (startDrain s) d → d.Q ≠ [] → d.graph.depends i ≠ ∅) := by
  obtain ⟨s₀, hs₀, hsound₀⟩ := sort_spec block i
  rw [← hlast, sort_succ, hs₀] at hs
  change sortStep block s₀ i = some s at hs
  unfold sortStep at hs
  rw [if_neg fun h => h.2 hT] at hs
  by_cases hcall : containsFunctionCall block i = true
  · rw [if_neg (not_not.mpr hcall)] at hs
    obtain ⟨e, g, -, hdrain, -, hwaits⟩ := drain_target hsound₀
    obtain rfl := Option.some.inj (hdrain.symm.trans hs)
    have hiff : (containsFunctionCall block i = true → ∀ s,
        (List.range i).foldlM (sortStep block) (startSort block) = some s →
        ∀ d, Relation.ReflTransGen (Turn block (keysOf s.Q)) (startDrain s) d → d.Q ≠ [] → d.graph.depends i ≠ ∅) ↔
        e.Q = [] := by
      rw [hwaits]
      constructor
      · intro h
        exact h hcall s₀ hs₀
      · intro h _ s hs d hd
        obtain rfl := Option.some.inj (hs₀.symm.trans hs)
        exact h d hd
    rw [hiff]
    have hsoundd := turns_sound (drainSound_start hsound) hd
    obtain ⟨rest, hrest⟩ := turns_prefix (drainSound_start hsound) hd
    change e.result ++ [i] ++ rest = d.result at hrest
    constructor
    · intro hlastd
      have hnil : rest = [] := by
        rcases List.eq_nil_or_concat rest with hnil | ⟨rest', x, rfl⟩
        · exact hnil
        · rw [List.concat_eq_append] at hrest ⊢
          rw [← hrest, ← List.append_assoc, List.getLast?_concat] at hlastd
          obtain rfl := Option.some.inj hlastd
          have hnodup := hsoundd.nodup.of_append_left
          rw [← hrest] at hnodup
          exact absurd (List.mem_append_right rest' List.mem_cons_self)
            (List.disjoint_of_nodup_append hnodup (List.mem_append_right _ List.mem_cons_self))
      rw [hnil, List.append_nil] at hrest
      have hlength := hsoundd.perm.length_eq
      have hlength' := hsound.perm.length_eq
      rw [hQ, List.append_nil, ← hrest] at hlength
      rw [List.length_append] at hlength'
      change (e.result ++ [i]).length + e.Q.length = _ at hlength'
      exact List.length_eq_zero_iff.mp (by omega)
    · intro hQe
      rcases hd.cases_head with rfl | ⟨_, hturn, -⟩
      · exact List.getLast?_concat
      · exact absurd hQe hturn.1
  · rw [if_pos hcall] at hs
    obtain rfl := Option.some.inj hs
    have hmem : i ∈ (startDrain { s₀ with Q := s₀.Q ++ [i] }).Q := List.mem_append_right _ List.mem_cons_self
    exact iff_of_true (turns_terminator hT hlast (drainSound_start hsound) hmem hd hQ) fun h => absurd h hcall

/-! ### Blocks -/

/-- Without functions and type aliases the statements stay as they are. -/
theorem range_after (hall : ∀ i < block.length, isStat block i) (hacyclic : Acyclic (graph block).Depends) :
    After (graph block).Depends (List.range block.length) := by
  have hrange : ∀ k, (∀ i < k, ∀ j, (graph block).Depends i j → j < i) → After (graph block).Depends (List.range k) := by
    intro k
    induction k with
    | zero => exact fun _ => after_nil _
    | succ k ih =>
      intro h
      rw [List.range_succ]
      refine (ih fun i hi => h i (by omega)).concat fun j hj => ?_
      exact List.mem_range.mpr (h k (Nat.lt_succ_self k) j hj)
  refine hrange _ fun i hi j hj => ?_
  obtain ⟨-, hlt, hne⟩ := graph_range hj
  by_contra hge
  have hback := orderArcs_reach (hall i hi) (hall j hlt) (by omega)
  exact hacyclic i ((Relation.TransGen.single hj).trans
    (Relation.TransGen.mono (fun a b hab => (mem_graph a b).mpr (Or.inr hab)) j i hback))

theorem range_ordered (k : ℕ) : After (OrderArc block) (List.range k) := by
  induction k with
  | zero => exact after_nil _
  | succ k ih =>
    rw [List.range_succ]
    refine ih.concat fun j hj => ?_
    rw [hj.2.2]
    exact List.mem_range.mpr (prevAt_lt hj.2.1)

/-- What `toposort` gives: the order arcs are respected, all arcs when they have no cycle and no statement has a call, and a
terminator is last exactly when it waits. -/
theorem toposort_spec (hlast : ∀ i, isBlockTerminator block i → i + 1 = block.length) :
    ∃ order, toposort block = some order ∧ order.Perm (List.range block.length) ∧ After (OrderArc block) order ∧
      (Acyclic (graph block).Depends → (∀ i, ¬containsFunctionCall block i) → After (graph block).Depends order) ∧
      ((∀ i, isBlockTerminator block i → order.getLast? = some i) ↔ TerminatorWaits block) := by
  unfold toposort
  by_cases hsame : block = [] ∨ ¬containsToposortableNode block
  · rw [if_pos hsame]
    refine ⟨_, rfl, List.Perm.refl _, range_ordered _, fun hacyclic _ => ?_, ?_⟩
    · refine range_after (fun i hi => ?_) hacyclic
      rw [isStat_eq (List.getElem?_eq_getElem hi), Bool.not_eq_true']
      by_contra hnode
      rw [Bool.not_eq_false] at hnode
      rcases hsame with rfl | hnone
      · exact absurd hi (Nat.not_lt_zero i)
      · exact hnone (List.any_eq_true.mpr ⟨_, List.getElem_mem hi, hnode⟩)
    · refine iff_of_true (fun i hi => ?_) fun hnode T s hT _ _ _ d _ _ => ?_
      · rw [← hlast i hi, List.range_succ]
        exact List.getLast?_concat
      · rcases hsame with rfl | hnone
        · cases hT
        · exact absurd hnode hnone
  · rw [if_neg hsame]
    obtain ⟨s, hs, hsound⟩ := sort_spec block block.length
    obtain ⟨d, hd, hQ, hdrain⟩ := drain_none hsound
    have hsoundd := turns_sound (drainSound_start hsound) hd
    have hnode : containsToposortableNode block = true := by
      by_contra hnode
      exact hsame (Or.inr hnode)
    rw [hs, Option.bind_some, hdrain]
    refine ⟨_, rfl, ?_, hsoundd.ordered, fun hacyclic hcalls => ?_, fun h => ?_, fun h i hi => ?_⟩
    · have hperm := hsoundd.perm
      rwa [hQ, List.append_nil] at hperm
    · have hdone := sort_depends hcalls _ s hs
      have hstart := drainSound_start hsound
      clear hdrain hQ hsoundd
      induction hd with
      | refl => exact hdone
      | tail hreach hturn ih => exact turn_depends hlast hacyclic (turns_sound hstart hreach) ih hturn
    · intro _ T s' hT hterm hcall hs' d' hd' hne
      exact (sort_terminator hterm hT hs hsound hd hQ).mp (h T hterm) hcall s' hs' d' hd' hne
    · refine (sort_terminator hi (hlast i hi) hs hsound hd hQ).mpr fun hcall s' hs' d' hd' hne => ?_
      exact h hnode i s' (hlast i hi) hi hcall hs' d' hd' hne

/-- `local module = {}`, a function that calls the next one, that one, and `return` -/
def sampleBlock (list : List Ast) : List Ast :=
  [.statLocal [⟨"module", 1⟩] [.exprOther []],
    .statFunction (.exprGlobal "first") (.exprFunction [.exprCall [.exprGlobal "second"]]),
    .statFunction (.exprGlobal "second") (.exprFunction []),
    .statReturn list]

theorem sampleBlock_last (list : List Ast) (i : ℕ) (hi : isBlockTerminator (sampleBlock list) i) :
    i + 1 = (sampleBlock list).length := by
  match i with
  | 0 | 1 | 2 => cases hi
  | 3 => rfl
  | i + 4 => cases hi

end Luwu.TopoSort
