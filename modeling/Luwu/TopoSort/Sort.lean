import Luwu.TopoSort.Graph
import Mathlib.Data.List.Range
import Mathlib.Data.List.Perm.Basic

/-!
# The order in which the statements of a block are checked

Statements are emitted directly, when the queue is drained for a statement with a call, and in the last drain. A failed
assertion of the source is `none`.
-/

namespace Luwu.TopoSort

open Luwu.Precedence

/-- The state of the loop over the nodes -/
structure Sorting where
  graph : Graph
  Q : List ℕ
  result : List ℕ

/-- The state of `drain`, with its copy of the arcs between the statements of the queue -/
structure Draining extends Sorting where
  allArcs : Graph

/-- The arcs to and from `next` are clipped in `arcs`, at the nodes that are keys. -/
def clip (keys : ℕ → Bool) (g arcs : Graph) (next : ℕ) : Option Graph :=
  if (∀ node ∈ g.provides next, keys node → next ∈ arcs.depends node) ∧
      (∀ node ∈ g.depends next, keys node → next ∈ arcs.provides node) then
    some
      { depends := fun node =>
          if node ∈ g.provides next ∧ keys node then (arcs.depends node).erase next else arcs.depends node
        provides := fun node =>
          if node ∈ g.depends next ∧ keys node then (arcs.provides node).erase next else arcs.provides node }
  else none

/-- Clip arcs to and from the node -/
def prune (g : Graph) (next : ℕ) : Option Graph := clip (fun _ => true) g g next

/-- A node is pruned and its statement added to the result. -/
def emit (s : Sorting) (next : ℕ) : Option Sorting :=
  (prune s.graph next).map fun g => { s with graph := g, result := s.result ++ [next] }

/-- The connectivity information without arcs that are not in Q -/
def inQ (g : Graph) (Q : List ℕ) : Graph where
  provides node := (g.provides node).filter (· ∈ Q)
  depends node := (g.depends node).filter (· ∈ Q)

/-- The first node of the queue that depends on no other of it, or the front: we've hit a cycle or a terminator. -/
def nextNode (block : List Ast) (allArcs : Graph) (front : ℕ) (Q : List ℕ) : ℕ :=
  ((front :: Q).find? fun n => !isBlockTerminator block n && decide (allArcs.depends n = ∅)).getD front

/-- One turn of the loop in `drain` -/
def turn (block : List Ast) (keys : ℕ → Bool) (s : Draining) : Option Draining :=
  match s.Q with
  | [] => some s
  | front :: Q =>
    let next := nextNode block s.allArcs front Q
    (clip keys s.graph s.allArcs next).bind fun allArcs =>
      (emit s.toSorting next).map fun t => { t with Q := s.Q.erase next, allArcs := allArcs }

/-- Without a target the queue is drained until it is empty, otherwise until the target's depends arcs are satisfied. -/
def stops (target : Option ℕ) (s : Draining) : Bool :=
  s.Q.isEmpty || target.any fun t => decide (s.graph.depends t = ∅)

def drainLoop (block : List Ast) (keys : ℕ → Bool) (target : Option ℕ) : ℕ → Draining → Option Sorting
  | 0, s => if stops target s then target.elim (some s.toSorting) (emit s.toSorting) else none
  | fuel + 1, s =>
    if stops target s then target.elim (some s.toSorting) (emit s.toSorting)
    else (turn block keys s).bind (drainLoop block keys target fuel)

def keysOf (Q : List ℕ) (node : ℕ) : Bool := decide (node ∈ Q)

def startDrain (s : Sorting) : Draining := { s with allArcs := inQ s.graph s.Q }

/-- Drain Q until the target's depends arcs are satisfied.  target is always added to the result. -/
def drain (block : List Ast) (s : Sorting) (target : Option ℕ) : Option Sorting :=
  drainLoop block (keysOf s.Q) target s.Q.length (startDrain s)

/-- One turn of the loop in `toposort` -/
def sortStep (block : List Ast) (s : Sorting) (next : ℕ) : Option Sorting :=
  if s.graph.depends next = ∅ ∧ ¬isBlockTerminator block next then emit s next
  else if ¬containsFunctionCall block next then some { s with Q := s.Q ++ [next] }
  else drain block s (some next)

def startSort (block : List Ast) : Sorting := ⟨graph block, [], []⟩

def containsToposortableNode (block : List Ast) : Bool := block.any (·.isToposortableNode)

/-- The statements in the order in which they are checked -/
def toposort (block : List Ast) : Option (List ℕ) :=
  if block = [] ∨ ¬containsToposortableNode block then some (List.range block.length)
  else
    ((List.range block.length).foldlM (sortStep block) (startSort block)).bind fun s =>
      (drain block s none).map (·.result)

/-! ### Pruning -/

section Pruning

variable {block : List Ast} {G g arcs : Graph} {keys : ℕ → Bool} {emitted : List ℕ} {i j n next : ℕ}

/-- At the keys that are not emitted, the arcs are those of `G` to keys that are not emitted. -/
def Pruned (keys : ℕ → Bool) (G g : Graph) (emitted : List ℕ) : Prop :=
  ∀ i, keys i → i ∉ emitted →
    (∀ j, j ∈ g.depends i ↔ j ∈ G.depends i ∧ j ∉ emitted ∧ keys j) ∧
      ∀ j, j ∈ g.provides i ↔ j ∈ G.provides i ∧ j ∉ emitted ∧ keys j

theorem pruned_start (G : Graph) : Pruned (fun _ => true) G G [] := by
  intro i _ _
  simp only [List.not_mem_nil, not_false_iff, and_true, iff_self, implies_true]

/-- The copy of the arcs starts as the arcs between the statements of the queue. -/
theorem pruned_inQ {Q : List ℕ} (h : Pruned (fun _ => true) G g emitted) : Pruned (keysOf Q) G (inQ g Q) emitted := by
  intro i _ hi
  obtain ⟨hdepends, hprovides⟩ := h i rfl hi
  refine ⟨fun j => ?_, fun j => ?_⟩
  · simp only [inQ, Finset.mem_filter, hdepends, keysOf, decide_eq_true_eq, and_true, and_assoc]
  · simp only [inQ, Finset.mem_filter, hprovides, keysOf, decide_eq_true_eq, and_true, and_assoc]

/-- Both copies of the arcs are pruned alike, and no assertion fails. -/
theorem clip_spec (hsymmetric : G.Symmetric) (hirrefl : ∀ i, i ∉ G.depends i) (hg : Pruned (fun _ => true) G g emitted)
    (harcs : Pruned keys G arcs emitted) (hnext : next ∉ emitted) (hkeys : keys next) :
    ∃ arcs', clip keys g arcs next = some arcs' ∧ Pruned keys G arcs' (emitted ++ [next]) := by
  obtain ⟨hdepends, hprovides⟩ := hg next rfl hnext
  have hself : next ∉ G.provides next := fun h => hirrefl next ((hsymmetric next next).mpr h)
  unfold clip
  rw [if_pos]
  · refine ⟨_, rfl, fun i hi hnot => ?_⟩
    rw [List.mem_append, List.mem_singleton, not_or] at hnot
    obtain ⟨hnew, hne⟩ := hnot
    obtain ⟨hdepends', hprovides'⟩ := harcs i hi hnew
    refine ⟨fun j => ?_, fun j => ?_⟩
    · show j ∈ (if i ∈ g.provides next ∧ keys i then (arcs.depends i).erase next else arcs.depends i) ↔ _
      rw [List.mem_append, List.mem_singleton, not_or]
      by_cases harc : i ∈ g.provides next ∧ keys i = true
      · rw [if_pos harc, Finset.mem_erase, hdepends']
        tauto
      · rw [if_neg harc, hdepends']
        have hfree : next ∉ G.depends i := by
          intro h
          exact harc ⟨(hprovides i).mpr ⟨(hsymmetric i next).mp h, hnew, rfl⟩, hi⟩
        constructor
        · rintro ⟨hj, hnotj, hkey⟩
          exact ⟨hj, ⟨hnotj, fun heq => hfree (heq ▸ hj)⟩, hkey⟩
        · rintro ⟨hj, ⟨hnotj, -⟩, hkey⟩
          exact ⟨hj, hnotj, hkey⟩
    · show j ∈ (if i ∈ g.depends next ∧ keys i then (arcs.provides i).erase next else arcs.provides i) ↔ _
      rw [List.mem_append, List.mem_singleton, not_or]
      by_cases harc : i ∈ g.depends next ∧ keys i = true
      · rw [if_pos harc, Finset.mem_erase, hprovides']
        tauto
      · rw [if_neg harc, hprovides']
        have hfree : next ∉ G.provides i := by
          intro h
          exact harc ⟨(hdepends i).mpr ⟨(hsymmetric next i).mpr h, hnew, rfl⟩, hi⟩
        constructor
        · rintro ⟨hj, hnotj, hkey⟩
          exact ⟨hj, ⟨hnotj, fun heq => hfree (heq ▸ hj)⟩, hkey⟩
        · rintro ⟨hj, ⟨hnotj, -⟩, hkey⟩
          exact ⟨hj, hnotj, hkey⟩
  · refine ⟨fun i hi hkey => ?_, fun i hi hkey => ?_⟩
    · obtain ⟨hG, hnew, -⟩ := (hprovides i).mp hi
      exact ((harcs i hkey hnew).1 next).mpr ⟨(hsymmetric i next).mpr hG, hnext, hkeys⟩
    · obtain ⟨hG, hnew, -⟩ := (hdepends i).mp hi
      exact ((harcs i hkey hnew).2 next).mpr ⟨(hsymmetric next i).mp hG, hnext, hkeys⟩

end Pruning

/-! ### The loops -/

section Loops

variable {block : List Ast} {s t : Sorting} {d d' : Draining} {keys : ℕ → Bool} {k n next fuel : ℕ} {target : Option ℕ}

/-- What holds after `k` statements of the block: each of them is in the result or in the queue, which is in lexical order,
and order arcs are respected. -/
structure Sound (block : List Ast) (k : ℕ) (s : Sorting) : Prop where
  pruned : Pruned (fun _ => true) (TopoSort.graph block) s.graph s.result
  perm : (s.result ++ s.Q).Perm (List.range k)
  sorted : s.Q.Pairwise (· < ·)
  ordered : After (OrderArc block) s.result

/-- The same inside of `drain`; all statements that are not keys are in the result. -/
structure DrainSound (block : List Ast) (k : ℕ) (keys : ℕ → Bool) (d : Draining) : Prop extends Sound block k d.toSorting where
  arcs : Pruned keys (TopoSort.graph block) d.allArcs d.result
  isKey : ∀ n ∈ d.Q, keys n
  others : ∀ n < k, keys n = false → n ∈ d.result

theorem Sound.nodup (h : Sound block k s) : (s.result ++ s.Q).Nodup := h.perm.nodup_iff.mpr List.nodup_range

theorem Sound.mem (h : Sound block k s) : n < k ↔ n ∈ s.result ∨ n ∈ s.Q := by
  rw [← List.mem_append, h.perm.mem_iff, List.mem_range]

theorem Sound.not_mem_result (h : Sound block k s) (hn : n ∈ s.Q) : n ∉ s.result :=
  fun hr => List.disjoint_of_nodup_append h.nodup hr hn

theorem sound_start (block : List Ast) : Sound block 0 (startSort block) where
  pruned := pruned_start (graph block)
  perm := List.Perm.refl _
  sorted := List.Pairwise.nil
  ordered := after_nil _

/-- A statement whose previous one is in the result can be emitted. -/
theorem emit_spec (hpruned : Pruned (fun _ => true) (graph block) s.graph s.result) (hnext : next ∉ s.result) :
    ∃ g, emit s next = some { s with graph := g, result := s.result ++ [next] } ∧
      Pruned (fun _ => true) (graph block) g (s.result ++ [next]) := by
  obtain ⟨g, hg, hpruned'⟩ := clip_spec symmetric_graph (fun i hi => (graph_range hi).2.2 rfl) hpruned hpruned hnext rfl
  refine ⟨g, ?_, hpruned'⟩
  unfold emit prune
  rw [hg]
  rfl

/-- The node of a turn: one that depends on no other of the queue, or the front when there is no such node. -/
theorem nextNode_cases (block : List Ast) (allArcs : Graph) (front : ℕ) (Q : List ℕ) :
    (nextNode block allArcs front Q ∈ front :: Q ∧ isBlockTerminator block (nextNode block allArcs front Q) = false ∧
        allArcs.depends (nextNode block allArcs front Q) = ∅) ∨
      nextNode block allArcs front Q = front ∧
        ∀ n ∈ front :: Q, isBlockTerminator block n = true ∨ allArcs.depends n ≠ ∅ := by
  unfold nextNode
  cases hfind : (front :: Q).find? fun n => !isBlockTerminator block n && decide (allArcs.depends n = ∅) with
  | some n =>
    have hn := List.find?_some hfind
    rw [Bool.and_eq_true, Bool.not_eq_true', decide_eq_true_eq] at hn
    exact Or.inl ⟨List.mem_of_find?_eq_some hfind, hn.1, hn.2⟩
  | none =>
    refine Or.inr ⟨rfl, fun n hn => ?_⟩
    have hnot := List.find?_eq_none.mp hfind n hn
    by_cases hterm : isBlockTerminator block n = true
    · exact Or.inl hterm
    · refine Or.inr fun hempty => hnot ?_
      rw [Bool.and_eq_true, Bool.not_eq_true', decide_eq_true_eq]
      exact ⟨Bool.not_eq_true _ ▸ hterm, hempty⟩

/-- One turn of `drain` moves one statement from the queue to the result. -/
theorem turn_spec (h : DrainSound block k keys d) (hQ : d.Q ≠ []) :
    ∃ next g arcs, turn block keys d =
        some { graph := g, Q := d.Q.erase next, result := d.result ++ [next], allArcs := arcs } ∧
      next ∈ d.Q ∧
      DrainSound block k keys { graph := g, Q := d.Q.erase next, result := d.result ++ [next], allArcs := arcs } ∧
      (isBlockTerminator block next = false ∧ d.allArcs.depends next = ∅ ∨
        d.Q.head? = some next ∧ ∀ n ∈ d.Q, isBlockTerminator block n = true ∨ d.allArcs.depends n ≠ ∅) := by
  obtain ⟨front, Q, hQ⟩ := List.exists_cons_of_ne_nil hQ
  have hcases := nextNode_cases block d.allArcs front Q
  generalize hnext : nextNode block d.allArcs front Q = next at hcases
  have hmem : next ∈ d.Q := by
    rw [hQ]
    rcases hcases with ⟨hmem, -⟩ | ⟨rfl, -⟩
    · exact hmem
    · exact List.mem_cons_self
  have hnot := h.not_mem_result hmem
  -- The statement before it is in the result.
  have hready : ∀ b, OrderArc block next b → b ∈ d.result := by
    intro b harc
    have hlt : b < next := by
      rw [harc.2.2]
      exact prevAt_lt harc.2.1
    have hk : b < k := hlt.trans (h.mem.mpr (Or.inr hmem))
    rcases hcases with ⟨-, -, hempty⟩ | ⟨hfront, -⟩
    · cases hkey : keys b with
      | false => exact h.others b hk hkey
      | true =>
        by_contra hb
        have hdepends := ((h.arcs next (h.isKey next hmem) hnot).1 b).mpr
          ⟨(mem_graph next b).mpr (Or.inr harc), hb, hkey⟩
        rw [hempty] at hdepends
        exact Finset.notMem_empty b hdepends
    · refine (h.mem.mp hk).resolve_right fun hb => ?_
      have hsorted := h.sorted
      rw [hQ] at hsorted hb
      rcases List.mem_cons.mp hb with rfl | hb
      · omega
      · have := (List.pairwise_cons.mp hsorted).1 b hb
        omega
  obtain ⟨g, hemit, hpruned⟩ := emit_spec h.pruned hnot
  obtain ⟨arcs, hclip, harcs⟩ :=
    clip_spec symmetric_graph (fun i hi => (graph_range hi).2.2 rfl) h.pruned h.arcs hnot (h.isKey next hmem)
  refine ⟨next, g, arcs, ?_, hmem, ⟨⟨hpruned, ?_, ?_, h.ordered.concat hready⟩, harcs, ?_, ?_⟩, ?_⟩
  · unfold turn
    simp only [hQ, hnext, hclip, hemit, Option.bind_some, Option.map_some]
  · refine List.Perm.trans ?_ h.perm
    rw [List.append_assoc]
    exact (List.perm_cons_erase hmem).symm.append_left _
  · exact h.sorted.sublist List.erase_sublist
  · exact fun n hn => h.isKey n (List.mem_of_mem_erase hn)
  · exact fun n hn hkey => List.mem_append_left _ (h.others n hn hkey)
  · rcases hcases with ⟨-, hterm, hempty⟩ | ⟨hfront, hall⟩
    · exact Or.inl ⟨hterm, hempty⟩
    · rw [hQ]
      exact Or.inr ⟨by rw [hfront]; rfl, hall⟩

theorem drainSound_start (h : Sound block k s) : DrainSound block k (keysOf s.Q) (startDrain s) where
  toSound := h
  arcs := pruned_inQ h.pruned
  isKey _ hn := decide_eq_true hn
  others _ hn hkey := (h.mem.mp hn).resolve_right (of_decide_eq_false hkey)

/-- The states that `drain` passes through -/
def Turn (block : List Ast) (keys : ℕ → Bool) (d d' : Draining) : Prop := d.Q ≠ [] ∧ turn block keys d = some d'

theorem Turn.sound (h : DrainSound block k keys d) (hturn : Turn block keys d d') : DrainSound block k keys d' := by
  obtain ⟨next, g, arcs, hrun, -, hsound, -⟩ := turn_spec h hturn.1
  obtain rfl := Option.some.inj (hrun.symm.trans hturn.2)
  exact hsound

theorem turns_sound (h : DrainSound block k keys d) (hturns : Relation.ReflTransGen (Turn block keys) d d') :
    DrainSound block k keys d' := by
  induction hturns with
  | refl => exact h
  | tail _ hturn ih => exact hturn.sound ih

theorem drainLoop_stop (hstop : stops target d = true) (fuel : ℕ) :
    drainLoop block keys target fuel d = target.elim (some d.toSorting) (emit d.toSorting) := by
  cases fuel with
  | zero => exact if_pos hstop
  | succ fuel => exact if_pos hstop

theorem ne_nil_of_not_stops (hstop : ¬stops target d = true) : d.Q ≠ [] := by
  intro hQ
  apply hstop
  unfold stops
  rw [hQ]
  rfl

/-- `drain` ends at the first state at which it may stop. -/
theorem drainLoop_spec (h : DrainSound block k keys d) (hfuel : d.Q.length ≤ fuel) (target : Option ℕ) :
    ∃ d', Relation.ReflTransGen (Turn block keys) d d' ∧ stops target d' = true ∧
      drainLoop block keys target fuel d = target.elim (some d'.toSorting) (emit d'.toSorting) ∧
      ∀ e, Relation.ReflTransGen (Turn block keys) d e → stops target e = true → d'.Q = [] → e.Q = [] := by
  induction fuel generalizing d with
  | zero =>
    have hQ : d.Q = [] := List.length_eq_zero_iff.mp (Nat.le_zero.mp hfuel)
    have hstop : stops target d = true := by
      by_contra hstop
      exact ne_nil_of_not_stops hstop hQ
    refine ⟨d, Relation.ReflTransGen.refl, hstop, drainLoop_stop hstop 0, fun e he _ _ => ?_⟩
    rcases he.cases_head with rfl | ⟨_, hturn, -⟩
    · exact hQ
    · exact absurd hQ hturn.1
  | succ fuel ih =>
    by_cases hstop : stops target d = true
    · refine ⟨d, Relation.ReflTransGen.refl, hstop, drainLoop_stop hstop _, fun e he _ hQ => ?_⟩
      rcases he.cases_head with rfl | ⟨_, hturn, -⟩
      · exact hQ
      · exact absurd hQ hturn.1
    · have hQ := ne_nil_of_not_stops hstop
      obtain ⟨next, g, arcs, hrun, hmem, hsound, -⟩ := turn_spec h hQ
      have hlength : (d.Q.erase next).length ≤ fuel := by
        have := List.length_erase_of_mem hmem
        omega
      obtain ⟨d', hreach, hstop', hend, hfirst⟩ := ih hsound hlength
      refine ⟨d', hreach.head ⟨hQ, hrun⟩, hstop', ?_, fun e he hstope hQ' => ?_⟩
      · rw [drainLoop, if_neg hstop, hrun]
        exact hend
      · rcases he.cases_head with rfl | ⟨d₂, hturn, hrest⟩
        · exact absurd hstope hstop
        · obtain rfl := Option.some.inj (hrun.symm.trans hturn.2)
          exact hfirst e hrest hstope hQ'

/-- A statement that is emitted next, when its previous one is in the result -/
theorem Sound.emit (h : Sound block k s) (hready : ∀ b, OrderArc block k b → b ∈ s.result) :
    ∃ g, emit s k = some { s with graph := g, result := s.result ++ [k] } ∧
      Sound block (k + 1) { s with graph := g, result := s.result ++ [k] } := by
  have hnot : k ∉ s.result := fun hk => absurd (h.mem.mpr (Or.inl hk)) (lt_irrefl k)
  obtain ⟨g, hemit, hpruned⟩ := emit_spec h.pruned hnot
  refine ⟨g, hemit, hpruned, ?_, h.sorted, h.ordered.concat hready⟩
  show (s.result ++ [k] ++ s.Q).Perm (List.range (k + 1))
  rw [List.range_succ, List.append_assoc]
  calc (s.result ++ ([k] ++ s.Q)).Perm (s.result ++ (s.Q ++ [k])) := List.perm_append_comm.append_left _
    _ = (s.result ++ s.Q) ++ [k] := (List.append_assoc _ _ _).symm
    (_ : List ℕ).Perm _ := h.perm.append_right [k]

/-- What a statement without dependencies waits for is in the result. -/
theorem Sound.depends_mem (h : Sound block k s) (hnext : next ∉ s.result) (hempty : s.graph.depends next = ∅) {b : ℕ}
    (hb : b ∈ (graph block).depends next) : b ∈ s.result := by
  by_contra hnot
  have hmem := ((h.pruned next rfl hnext).1 b).mpr ⟨hb, hnot, rfl⟩
  rw [hempty] at hmem
  exact Finset.notMem_empty b hmem

/-- Without a target the queue is empty in the end. -/
theorem drain_none (h : Sound block k s) :
    ∃ d, Relation.ReflTransGen (Turn block (keysOf s.Q)) (startDrain s) d ∧ d.Q = [] ∧
      drain block s none = some d.toSorting := by
  obtain ⟨d, hreach, hstop, hend, -⟩ := drainLoop_spec (drainSound_start h) le_rfl none
  refine ⟨d, hreach, ?_, hend⟩
  unfold stops at hstop
  rw [Option.any_none, Bool.or_false] at hstop
  exact List.isEmpty_iff.mp hstop

/-- The target is emitted when the queue is empty or its dependencies are. -/
theorem drain_target (h : Sound block k s) :
    ∃ d g, Relation.ReflTransGen (Turn block (keysOf s.Q)) (startDrain s) d ∧
      drain block s (some k) = some { d.toSorting with graph := g, result := d.result ++ [k] } ∧
      Sound block (k + 1) { d.toSorting with graph := g, result := d.result ++ [k] } ∧
      (d.Q = [] ↔ ∀ e, Relation.ReflTransGen (Turn block (keysOf s.Q)) (startDrain s) e → e.Q ≠ [] →
        e.graph.depends k ≠ ∅) := by
  obtain ⟨d, hreach, hstop, hend, hfirst⟩ := drainLoop_spec (drainSound_start h) le_rfl (some k)
  have hsound := (turns_sound (drainSound_start h) hreach).toSound
  unfold stops at hstop
  rw [Option.any_some, Bool.or_eq_true, List.isEmpty_iff, decide_eq_true_eq] at hstop
  have hnot : k ∉ d.result := fun hk => absurd (hsound.mem.mpr (Or.inl hk)) (lt_irrefl k)
  have hready : ∀ b, OrderArc block k b → b ∈ d.result := by
    intro b harc
    rcases hstop with hQ | hempty
    · have hlt : b < k := by
        rw [harc.2.2]
        exact prevAt_lt harc.2.1
      refine (hsound.mem.mp hlt).resolve_right ?_
      rw [hQ]
      exact List.not_mem_nil
    · exact hsound.depends_mem hnot hempty ((mem_graph k b).mpr (Or.inr harc))
  obtain ⟨g, hemit, hsound'⟩ := hsound.emit hready
  refine ⟨d, g, hreach, hend.trans hemit, hsound', fun hQ e he hne hempty => ?_, fun hall => ?_⟩
  · refine hne (hfirst e he ?_ hQ)
    unfold stops
    rw [Option.any_some, decide_eq_true hempty, Bool.or_true]
  · by_contra hne
    exact hall d hreach hne (hstop.resolve_left hne)

/-- One turn of the loop over the statements -/
theorem sortStep_spec (h : Sound block k s) : ∃ t, sortStep block s k = some t ∧ Sound block (k + 1) t := by
  unfold sortStep
  by_cases hdirect : s.graph.depends k = ∅ ∧ ¬isBlockTerminator block k = true
  · rw [if_pos hdirect]
    have hnot : k ∉ s.result := fun hk => absurd (h.mem.mpr (Or.inl hk)) (lt_irrefl k)
    obtain ⟨g, hemit, hsound⟩ := h.emit fun b harc => h.depends_mem hnot hdirect.1 ((mem_graph k b).mpr (Or.inr harc))
    exact ⟨_, hemit, hsound⟩
  · rw [if_neg hdirect]
    by_cases hcall : ¬containsFunctionCall block k = true
    · rw [if_pos hcall]
      refine ⟨_, rfl, h.pruned, ?_, ?_, h.ordered⟩
      · show (s.result ++ (s.Q ++ [k])).Perm (List.range (k + 1))
        rw [List.range_succ, ← List.append_assoc]
        exact h.perm.append_right [k]
      · refine List.pairwise_append.mpr ⟨h.sorted, List.pairwise_singleton _ _, fun a ha b hb => ?_⟩
        rw [List.mem_singleton.mp hb]
        exact h.mem.mpr (Or.inr ha)
    · rw [if_neg hcall]
      obtain ⟨d, g, -, hdrain, hsound, -⟩ := drain_target h
      exact ⟨_, hdrain, hsound⟩

theorem sort_succ (block : List Ast) (k : ℕ) (s : Sorting) : (List.range (k + 1)).foldlM (sortStep block) s =
    ((List.range k).foldlM (sortStep block) s).bind fun s => sortStep block s k := by
  rw [List.range_succ, List.foldlM_append]
  cases (List.range k).foldlM (sortStep block) s with
  | none => rfl
  | some t => exact bind_pure (sortStep block t k)

/-- The loop over the statements: no assertion fails. -/
theorem sort_spec (block : List Ast) (k : ℕ) :
    ∃ s, (List.range k).foldlM (sortStep block) (startSort block) = some s ∧ Sound block k s := by
  induction k with
  | zero => exact ⟨_, rfl, sound_start block⟩
  | succ k ih =>
    obtain ⟨s, hrun, hsound⟩ := ih
    obtain ⟨t, hstep, hsound'⟩ := sortStep_spec hsound
    refine ⟨t, ?_, hsound'⟩
    rw [sort_succ, hrun]
    exact hstep

end Loops

end Luwu.TopoSort
