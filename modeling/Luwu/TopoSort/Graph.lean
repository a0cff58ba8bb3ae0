import Luwu.Lib.Precedence
import Mathlib.Data.Finset.Insert
import Mathlib.Logic.Function.Basic

/-!
# The dependencies of the statements of a block

Statements are told apart by their position in the block. The tree has what the two visitors tell apart; all other
expressions, statements and types are the children that they visit.
-/

namespace Luwu.TopoSort

open Luwu.Precedence

/-- `AstLocal`, told apart by its address -/
structure Local where
  name : String
  address : ℕ
  deriving DecidableEq

/-- `ctx` is only used to disambiguate potentially shadowed names. -/
structure Identifier where
  name : String
  ctx : Option ℕ
  deriving DecidableEq

/-- What the parser accepts as the name of a function -/
inductive FunctionName where
  | exprLocal (local' : Local)
  | exprGlobal (name : String)
  | exprError (messageIndex : ℕ)
  | exprIndexName (expr : FunctionName) (index : String)

inductive Ast where
  | exprLocal (local' : Local)
  | exprGlobal (name : String)
  | exprIndexName (expr : Ast) (index : String)
  | exprError (expressions : List Ast) (messageIndex : ℕ)
  | exprCall (children : List Ast)
  | exprFunction (children : List Ast)
  | exprOther (children : List Ast)
  | statFunction (name : FunctionName) (func : Ast)
  | statLocalFunction (name : Local) (func : Ast)
  | statAssign (vars values : List Ast)
  | statLocal (vars : List Local) (children : List Ast)
  | statTypeAlias (name : String) (children : List Ast)
  | statForIn (children : List Ast)
  | statReturn (list : List Ast)
  | statBreak
  | statContinue
  | statOther (children : List Ast)
  | typeReference (name : String) (parameters : List Ast)
  | typeTypeof (expr : Ast)
  | typeOther (children : List Ast)
  | typePack (children : List Ast)

def mkNameLocal (l : Local) : Identifier := ⟨l.name, some l.address⟩

def mkNameGlobal (name : String) : Identifier := ⟨name, none⟩

def mkNameError (messageIndex : ℕ) : Identifier := ⟨"error#" ++ toString messageIndex, none⟩

def mkNameIndex (lhs : Identifier) (index : String) : Identifier := ⟨lhs.name ++ "." ++ index, lhs.ctx⟩

def FunctionName.mkName : FunctionName → Identifier
  | .exprLocal l => mkNameLocal l
  | .exprGlobal name => mkNameGlobal name
  | .exprError messageIndex => mkNameError messageIndex
  | .exprIndexName expr index => mkNameIndex expr.mkName index

/-- `mkName` of an expression -/
def Ast.exprName : Ast → Option Identifier
  | .exprLocal l => some (mkNameLocal l)
  | .exprGlobal name => some (mkNameGlobal name)
  | .exprIndexName expr index => expr.exprName.map (mkNameIndex · index)
  | .exprError _ messageIndex => some (mkNameError messageIndex)
  | _ => none

/-- `mkName` of a statement: what it defines -/
def Ast.mkName : Ast → Option Identifier
  | .statFunction name _ => some name.mkName
  | .statLocalFunction name _ => some (mkNameLocal name)
  | .statAssign [var] _ => var.exprName
  | .statLocal [var] _ => some (mkNameLocal var)
  | .statTypeAlias name _ => some (mkNameGlobal name)
  | _ => none

/-- The names that `ArcCollector` adds in the name of a function -/
def FunctionName.refs : FunctionName → List Identifier
  | .exprLocal l => [mkNameLocal l]
  | .exprGlobal name => [mkNameGlobal name]
  | .exprError _ => []
  | .exprIndexName expr index => mkNameIndex expr.mkName index :: expr.refs

mutual

/-- The names that `ArcCollector` adds, in the order of the visit -/
def Ast.refs : Ast → List Identifier
  | .exprLocal l => [mkNameLocal l]
  | .exprGlobal name => [mkNameGlobal name]
  | .exprIndexName expr index => (expr.exprName.map (mkNameIndex · index)).toList ++ expr.refs
  | .exprError expressions _ => refsList expressions
  | .exprCall children => refsList children
  | .exprFunction children => refsList children
  | .exprOther children => refsList children
  | .statFunction name func => name.mkName :: (name.refs ++ func.refs)
  | .statLocalFunction name func => mkNameLocal name :: func.refs
  | .statAssign vars values => refsList vars ++ refsList values
  | .statLocal _ children => refsList children
  | .statTypeAlias name children => mkNameGlobal name :: refsList children
  | .statForIn children => refsList children
  | .statReturn list => refsList list
  | .statBreak => []
  | .statContinue => []
  | .statOther children => refsList children
  | .typeReference name parameters => mkNameGlobal name :: refsList parameters
  | .typeTypeof expr => expr.exprName.toList ++ expr.refs
  | .typeOther children => refsList children
  | .typePack children => refsList children

def refsList : List Ast → List Identifier
  | [] => []
  | node :: rest => node.refs ++ refsList rest

end

mutual

/-- `ContainsFunctionCall`; the body of a function is not visited, and neither are type packs. -/
def Ast.containsFunctionCall : Ast → Bool
  | .exprCall _ => true
  -- for in loops perform an implicit function call as part of the iterator protocol
  | .statForIn _ => true
  | .exprFunction _ => false
  | .statFunction _ _ => false
  | .statLocalFunction _ _ => false
  | .typePack _ => false
  | .exprLocal _ => false
  | .exprGlobal _ => false
  | .exprIndexName expr _ => expr.containsFunctionCall
  | .exprError expressions _ => anyCall expressions
  | .exprOther children => anyCall children
  | .statAssign vars values => anyCall vars || anyCall values
  | .statLocal _ children => anyCall children
  | .statTypeAlias _ children => anyCall children
  | .statReturn list => anyCall list
  | .statBreak => false
  | .statContinue => false
  | .statOther children => anyCall children
  | .typeReference _ parameters => anyCall parameters
  | .typeTypeof expr => expr.containsFunctionCall
  | .typeOther children => anyCall children

def anyCall : List Ast → Bool
  | [] => false
  | node :: rest => node.containsFunctionCall || anyCall rest

end

def Ast.isFunction : Ast → Bool
  | .statFunction _ _ => true
  | .statLocalFunction _ _ => true
  | _ => false

def Ast.isToposortableNode : Ast → Bool
  | .statTypeAlias _ _ => true
  | node => node.isFunction

def Ast.isBlockTerminator : Ast → Bool
  | .statReturn _ => true
  | .statBreak => true
  | .statContinue => true
  | _ => false

/-- The arcs of the nodes, in both directions -/
structure Graph where
  provides : ℕ → Finset ℕ
  depends : ℕ → Finset ℕ

def Graph.empty : Graph := ⟨fun _ => ∅, fun _ => ∅⟩

/-- The node `current` depends on `n`. -/
def Graph.link (g : Graph) (n current : ℕ) : Graph where
  provides := Function.update g.provides n (insert current (g.provides n))
  depends := Function.update g.depends current (insert n (g.depends current))

/-- The first node of each name, as in the map of `ArcCollector` -/
def find (block : List Ast) (name : Identifier) : Option ℕ := block.findIdx? fun node => node.mkName == some name

/-- Adds a dependency from the current node to the named node. -/
def add (block : List Ast) (currentArc : ℕ) (g : Graph) (name : Identifier) : Graph :=
  match find block name with
  | none => g
  | some n => if n = currentArc then g else g.link n currentArc

/-- The visits of the nodes from `it` on -/
def collect (block : List Ast) : List Ast → ℕ → Graph → Graph
  | [], _, g => g
  | node :: rest, it, g => collect block rest (it + 1) (node.refs.foldl (add block it) g)

/-- The graph that `ArcCollector` builds -/
def collected (block : List Ast) : Graph := collect block block 0 .empty

/-- Statements that do not define functions or types depend on the previous one of that kind, the first of them on the first
statement of the block. -/
def orderArcs : List Ast → ℕ → ℕ → Graph → Graph
  | [], _, _, g => g
  | node :: rest, it, prev, g =>
    if it ≠ prev ∧ ¬node.isToposortableNode then orderArcs rest (it + 1) it (g.link prev it)
    else orderArcs rest (it + 1) prev g

/-- The graph that the statements are sorted by -/
def graph (block : List Ast) : Graph := orderArcs block 0 0 (collected block)

/-- Statements that are neither functions nor type aliases -/
def isStat (block : List Ast) (i : ℕ) : Bool := (block[i]?).any (!·.isToposortableNode)

def isBlockTerminator (block : List Ast) (i : ℕ) : Bool := (block[i]?).any (·.isBlockTerminator)

def containsFunctionCall (block : List Ast) (i : ℕ) : Bool := (block[i]?).any (·.containsFunctionCall)

/-- The value of `prev` when the loop over the statements reaches `i` -/
def prevAt (block : List Ast) : ℕ → ℕ
  | 0 => 0
  | i + 1 => if isStat block i then i else prevAt block i

section Arcs

variable {block : List Ast} {g : Graph} {i j n k : ℕ}

/-- The two directions of the arcs agree. -/
def Graph.Symmetric (g : Graph) : Prop := ∀ i j, j ∈ g.depends i ↔ i ∈ g.provides j

theorem symmetric_empty : Graph.empty.Symmetric := fun i j => by
  simp only [Graph.empty, Finset.notMem_empty]

theorem mem_link_depends : j ∈ (g.link n k).depends i ↔ j ∈ g.depends i ∨ i = k ∧ j = n := by
  unfold Graph.link
  by_cases hi : i = k
  · subst hi
    simp only [Function.update_self, Finset.mem_insert, true_and]
    exact or_comm
  · simp only [Function.update_of_ne hi, hi, false_and, or_false]

theorem mem_link_provides : i ∈ (g.link n k).provides j ↔ i ∈ g.provides j ∨ i = k ∧ j = n := by
  unfold Graph.link
  by_cases hj : j = n
  · subst hj
    simp only [Function.update_self, Finset.mem_insert, and_true]
    exact or_comm
  · simp only [Function.update_of_ne hj, hj, and_false, or_false]

theorem Graph.Symmetric.link (h : g.Symmetric) (n k : ℕ) : (g.link n k).Symmetric := fun i j => by
  rw [mem_link_depends, mem_link_provides, h i j]

theorem Graph.Symmetric.add (h : g.Symmetric) (k : ℕ) (name : Identifier) : (add block k g name).Symmetric := by
  unfold TopoSort.add
  cases find block name with
  | none => exact h
  | some n =>
    show (if n = k then g else g.link n k).Symmetric
    by_cases hn : n = k
    · rw [if_pos hn]
      exact h
    · rw [if_neg hn]
      exact h.link n k

theorem mem_add_depends (name : Identifier) :
    j ∈ (add block k g name).depends i ↔ j ∈ g.depends i ∨ i = k ∧ find block name = some j ∧ j ≠ i := by
  unfold TopoSort.add
  cases hfind : find block name with
  | none => simp only [reduceCtorEq, false_and, and_false, or_false]
  | some n =>
    show j ∈ (if n = k then g else g.link n k).depends i ↔ _
    by_cases hn : n = k
    · rw [if_pos hn]
      refine ⟨Or.inl, fun h => h.resolve_right ?_⟩
      rintro ⟨rfl, hj, hne⟩
      exact hne ((Option.some.inj hj).symm.trans hn)
    · rw [if_neg hn, mem_link_depends]
      refine or_congr_right (and_congr_right fun hi => ?_)
      subst hi
      constructor
      · rintro rfl
        exact ⟨rfl, hn⟩
      · rintro ⟨hj, -⟩
        exact (Option.some.inj hj).symm

theorem mem_visit_depends (names : List Identifier) :
    j ∈ (names.foldl (add block k) g).depends i ↔
      j ∈ g.depends i ∨ i = k ∧ (∃ name ∈ names, find block name = some j) ∧ j ≠ i := by
  induction names generalizing g with
  | nil => simp only [List.foldl_nil, List.not_mem_nil, false_and, exists_false, and_false, or_false]
  | cons name names ih =>
    rw [List.foldl_cons, ih, mem_add_depends, or_assoc]
    refine or_congr_right ?_
    rw [List.exists_mem_cons_iff, or_and_right, and_or_left]

theorem symmetric_visit (names : List Identifier) (h : g.Symmetric) (k : ℕ) :
    (names.foldl (add block k) g).Symmetric := by
  induction names generalizing g with
  | nil => exact h
  | cons name names ih => exact ih (h.add k name)

theorem collect_spec (rest : List Ast) (it : ℕ) (hg : g.Symmetric) :
    (collect block rest it g).Symmetric ∧ ∀ i j, j ∈ (collect block rest it g).depends i ↔ j ∈ g.depends i ∨
      ∃ m node, rest[m]? = some node ∧ i = it + m ∧ (∃ name ∈ node.refs, find block name = some j) ∧ j ≠ i := by
  induction rest generalizing it g with
  | nil =>
    refine ⟨hg, fun i j => ?_⟩
    simp only [collect, List.getElem?_nil, reduceCtorEq, false_and, exists_false, or_false]
  | cons head rest ih =>
    obtain ⟨hsymmetric, hmem⟩ := ih (it + 1) (symmetric_visit head.refs hg it)
    refine ⟨hsymmetric, fun i j => ?_⟩
    rw [collect, hmem, mem_visit_depends, or_assoc]
    refine or_congr_right ?_
    constructor
    · rintro (⟨rfl, hname, hne⟩ | ⟨m, node, hnode, rfl, hname, hne⟩)
      · exact ⟨0, head, rfl, rfl, hname, hne⟩
      · exact ⟨m + 1, node, hnode, by omega, hname, hne⟩
    · rintro ⟨m, node, hnode, hi, hname, hne⟩
      cases m with
      | zero =>
        obtain rfl := Option.some.inj hnode
        exact Or.inl ⟨hi, hname, hne⟩
      | succ m => exact Or.inr ⟨m, node, hnode, by omega, hname, hne⟩

/-- A statement depends on the first of the statements that define a name that it refers to. -/
theorem mem_collected (i j : ℕ) : j ∈ (collected block).depends i ↔
    ∃ node, block[i]? = some node ∧ (∃ name ∈ node.refs, find block name = some j) ∧ j ≠ i := by
  unfold collected
  rw [(collect_spec block 0 symmetric_empty).2 i j]
  constructor
  · rintro (h | ⟨m, node, hnode, hi, hname, hne⟩)
    · exact absurd h (Finset.notMem_empty j)
    · obtain rfl : i = m := by omega
      exact ⟨node, hnode, hname, hne⟩
  · rintro ⟨node, hnode, hname, hne⟩
    exact Or.inr ⟨i, node, hnode, by omega, hname, hne⟩

theorem isStat_eq {node : Ast} (h : block[i]? = some node) : isStat block i = !node.isToposortableNode := by
  unfold isStat
  rw [h]
  rfl

theorem prevAt_lt (hi : 0 < i) : prevAt block i < i := by
  induction i with
  | zero => omega
  | succ i ih =>
    rw [prevAt]
    by_cases hstat : isStat block i = true
    · rw [if_pos hstat]
      omega
    · rw [if_neg hstat]
      cases i with
      | zero => exact Nat.zero_lt_one
      | succ i => exact (ih (Nat.succ_pos i)).trans (Nat.lt_succ_self _)

/-- The order arc of a statement -/
def OrderArc (block : List Ast) (i j : ℕ) : Prop := isStat block i ∧ 0 < i ∧ j = prevAt block i

theorem orderArcs_spec (rest : List Ast) (it : ℕ) (hrest : rest = block.drop it) (hg : g.Symmetric) :
    (orderArcs rest it (prevAt block it) g).Symmetric ∧
      ∀ i j, j ∈ (orderArcs rest it (prevAt block it) g).depends i ↔ j ∈ g.depends i ∨ it ≤ i ∧ OrderArc block i j := by
  induction rest generalizing it g with
  | nil =>
    refine ⟨hg, fun i j => ?_⟩
    rw [orderArcs]
    refine ⟨Or.inl, fun h => h.resolve_right ?_⟩
    rintro ⟨hi, hstat, -⟩
    have hlen : block.length ≤ it := List.drop_eq_nil_iff.mp hrest.symm
    rw [isStat, List.getElem?_eq_none (by omega)] at hstat
    cases hstat
  | cons node rest ih =>
    have hnode : block[it]? = some node := by
      rw [← List.head?_drop, ← hrest]
      rfl
    have hrest' : rest = block.drop (it + 1) := by
      rw [← List.tail_drop, ← hrest]
      rfl
    rw [orderArcs]
    by_cases hlink : it ≠ prevAt block it ∧ ¬node.isToposortableNode
    · rw [if_pos hlink]
      have hstat : isStat block it = true := by
        rw [isStat_eq hnode, Bool.not_eq_true']
        exact Bool.not_eq_true _ ▸ hlink.2
      have hpos : 0 < it := by
        rcases Nat.eq_zero_or_pos it with rfl | hpos
        · exact absurd rfl hlink.1
        · exact hpos
      have hprev : prevAt block (it + 1) = it := by rw [prevAt, if_pos hstat]
      obtain ⟨hsymmetric, hmem⟩ := ih (it + 1) hrest' (hg.link (prevAt block it) it)
      rw [hprev] at hsymmetric hmem
      refine ⟨hsymmetric, fun i j => ?_⟩
      rw [hmem, mem_link_depends, or_assoc]
      refine or_congr_right ?_
      constructor
      · rintro (⟨rfl, rfl⟩ | ⟨hi, harc⟩)
        · exact ⟨le_rfl, hstat, hpos, rfl⟩
        · exact ⟨by omega, harc⟩
      · rintro ⟨hi, harc⟩
        rcases Nat.eq_or_lt_of_le hi with rfl | hlt
        · exact Or.inl ⟨rfl, harc.2.2⟩
        · exact Or.inr ⟨hlt, harc⟩
    · rw [if_neg hlink]
      have hnone : ∀ j, ¬OrderArc block it j := by
        rintro j ⟨hstat, hpos, -⟩
        refine hlink ⟨(prevAt_lt hpos).ne', ?_⟩
        rw [isStat_eq hnode, Bool.not_eq_true'] at hstat
        rw [hstat]
        exact Bool.false_ne_true
      have hprev : prevAt block (it + 1) = prevAt block it := by
        rw [prevAt]
        by_cases hstat : isStat block it = true
        · rw [if_pos hstat]
          rcases Nat.eq_zero_or_pos it with rfl | hpos
          · rfl
          · exact absurd ⟨hstat, hpos, rfl⟩ (hnone _)
        · rw [if_neg hstat]
      obtain ⟨hsymmetric, hmem⟩ := ih (it + 1) hrest' hg
      rw [hprev] at hsymmetric hmem
      refine ⟨hsymmetric, fun i j => ?_⟩
      rw [hmem]
      refine or_congr_right (and_congr_left fun harc => ?_)
      constructor
      · intro hi
        omega
      · intro hi
        rcases Nat.eq_or_lt_of_le hi with rfl | hlt
        · exact absurd harc (hnone j)
        · exact hlt

theorem symmetric_collected : (collected block).Symmetric := (collect_spec block 0 symmetric_empty).1

theorem symmetric_graph : (graph block).Symmetric :=
  (orderArcs_spec block 0 rfl symmetric_collected).1

/-- The arcs are those of `ArcCollector` and the order arcs. -/
theorem mem_graph (i j : ℕ) :
    j ∈ (graph block).depends i ↔ j ∈ (collected block).depends i ∨ OrderArc block i j := by
  have hmem := (orderArcs_spec block 0 rfl (@symmetric_collected block)).2 i j
  exact hmem.trans (or_congr_right ⟨fun h => h.2, fun h => ⟨Nat.zero_le i, h⟩⟩)

theorem lt_of_isStat (h : isStat block i = true) : i < block.length := by
  by_contra hge
  rw [isStat, List.getElem?_eq_none (by omega)] at h
  cases h

theorem find_some {name : Identifier} (h : find block name = some j) :
    ∃ node, block[j]? = some node ∧ node.mkName = some name := by
  obtain ⟨hj, hname, -⟩ := List.findIdx?_eq_some_iff_getElem.mp h
  exact ⟨block[j], List.getElem?_eq_getElem hj, eq_of_beq hname⟩

/-- Arcs stay in the block, and no statement depends on itself. -/
theorem graph_range (h : j ∈ (graph block).depends i) : i < block.length ∧ j < block.length ∧ j ≠ i := by
  rcases (mem_graph i j).mp h with h | ⟨hstat, hpos, rfl⟩
  · obtain ⟨node, hnode, ⟨name, -, hfind⟩, hne⟩ := (mem_collected i j).mp h
    obtain ⟨other, hother, -⟩ := find_some hfind
    exact ⟨(List.getElem?_eq_some_iff.mp hnode).1, (List.getElem?_eq_some_iff.mp hother).1, hne⟩
  · have hlt := @prevAt_lt block _ hpos
    have hi := lt_of_isStat hstat
    exact ⟨hi, by omega, by omega⟩

/-- No statement depends on a terminator at the end. -/
theorem terminator_provides (hterm : isBlockTerminator block j = true) (hlast : j + 1 = block.length) :
    j ∉ (graph block).depends i := by
  intro h
  rcases (mem_graph i j).mp h with h | ⟨hstat, hpos, rfl⟩
  · obtain ⟨node, hnode, ⟨name, -, hfind⟩, hne⟩ := (mem_collected i j).mp h
    obtain ⟨other, hother, hname⟩ := find_some hfind
    rw [isBlockTerminator, hother] at hterm
    cases other with
    | statReturn | statBreak | statContinue => cases hname
    | _ => cases hterm
  · have hlt := @prevAt_lt block _ hpos
    have hi := lt_of_isStat hstat
    omega

/-- The order arc leads to the previous statement. -/
theorem le_prevAt (hstat : isStat block j = true) (hji : j < i) : j ≤ prevAt block i := by
  induction i with
  | zero => omega
  | succ i ih =>
    rw [prevAt]
    by_cases hi : isStat block i = true
    · rw [if_pos hi]
      omega
    · rw [if_neg hi]
      refine ih (lt_of_le_of_ne (by omega) ?_)
      rintro rfl
      exact hi hstat

end Arcs

end Luwu.TopoSort
