import Luwu.Lib.Binary
import Luwu.Lib.Run

/-!
# Concatenation

`luaV_concat` takes the operands from the right.  A run of strings and numbers is joined in one pass, of whatever length;
anything else calls a metamethod for two operands.  The outcome is that of combining two operands at a time
(`rightFold`).

A metamethod may do anything to the world but leaves the slots of its caller alone; the text of a number is a parameter.
The lengths of strings are numbers of the width of `size_t`.
-/

namespace Luwu.Concat

open Run

def MAXSSIZE : ℕ := 2 ^ 30
def LUA_BUFFERSIZE : ℕ := 512

/-- No string is longer than the limit. -/
structure TString where
  data : List UInt8
  short : data.length ≤ MAXSSIZE

inductive Value (β : Type)
  | string (s : TString)
  | number (n : Double)
  | other (b : β)

inductive Error (β ε : Type)
  | overflow
  | toobig
  | concaterror (p1 p2 : Value β)
  | raised (e : ε)
  /-- more bytes are copied than the buffer was made for -/
  | overrun
  | loop

/-- The text of numbers, the metamethods `__concat` of values, and their calls -/
structure Host (β σ ε : Type) where
  num2str : Double → TString
  gettmbyobj : σ → Value β → Option (Value β)
  call : Value β → Value β → Value β → EStateM ε σ (Value β)

structure State (β σ : Type) where
  base : ℕ → Value β
  world : σ

variable {β σ ε : Type}

abbrev ConcatM (β σ ε : Type) := EStateM (Error β ε) (State β σ)

def setslot (i : ℕ) (v : Value β) : ConcatM β σ ε Unit := modify fun s => { s with base := Function.update s.base i v }

/-- `ttisstring(o) || ttisnumber(o)` -/
def Value.isText : Value β → Bool
  | string _ => true
  | number _ => true
  | other _ => false

def tsvalue : Value β → List UInt8
  | .string s => s.data
  | _ => []

/-- A number becomes its text. -/
def tostring (H : Host β σ ε) (i : ℕ) : ConcatM β σ ε Bool := do
  match (← get).base i with
  | .string _ => return true
  | .number n =>
    setslot i (.string (H.num2str n))
    return true
  | .other _ => return false

/-- The result is stored in the slot `res`. -/
def call_binTM (H : Host β σ ε) (p1 p2 : Value β) (res : ℕ) : ConcatM β σ ε Bool := fun s =>
  match (H.gettmbyobj s.world p1).or (H.gettmbyobj s.world p2) with
  | none => .ok false s
  | some tm =>
    match H.call tm p1 p2 s.world with
    | .ok v w => .ok true ⟨Function.update s.base res v, w⟩
    | .error e w => .error (.raised e) { s with world := w }

/-- `a - b` and `a + b`, in `size_t` -/
def sizeSub (a b : ℕ) : ℕ := (a + 2 ^ 64 - b) % 2 ^ 64
def sizeAdd (a b : ℕ) : ℕ := (a + b) % 2 ^ 64

/-- Get as many strings as possible, and their total length. -/
def gather (H : Host β σ ε) (total top : ℕ) : ℕ → ℕ → ℕ → ConcatM β σ ε (ℕ × ℕ)
  | 0, n, tl => return (n, tl)
  | fuel + 1, n, tl => do
    if n < total then
      if ← tostring H (top - n - 1) then
        let l := (tsvalue ((← get).base (top - n - 1))).length
        if sizeSub MAXSSIZE tl < l then throw .overflow
        gather H total top fuel (n + 1) (sizeAdd tl l)
      else return (n, tl)
    else return (n, tl)

/-- The loop that copies the strings into the buffer -/
def copied (base : ℕ → Value β) (top : ℕ) : ℕ → List UInt8
  | 0 => []
  | i + 1 => tsvalue (base (top - (i + 1))) ++ copied base top i

/-- A buffer for `tl` bytes, on the stack or by `luaS_bufstart`, and the string that is made of it -/
def newstring (tl : ℕ) (buffer : List UInt8) : ConcatM β σ ε TString :=
  if LUA_BUFFERSIZE ≤ tl ∧ MAXSSIZE < tl then throw .toobig
  else if tl < buffer.length then throw .overrun
  else if h : buffer.length ≤ MAXSSIZE then pure ⟨buffer, h⟩
  else throw .toobig

/-- One pass; the answer is the number of elements it handled. -/
def pass (H : Host β σ ε) (total last : ℕ) : ConcatM β σ ε ℕ := do
  let top := last + 1
  let joins ← if ((← get).base (top - 2)).isText then tostring H (top - 1) else pure false
  if !joins then
    let s ← get
    if !(← call_binTM H (s.base (top - 2)) (s.base (top - 1)) (top - 2)) then
      throw (.concaterror (s.base (top - 2)) (s.base (top - 1)))
    return 2
  else if (tsvalue ((← get).base (top - 1))).length = 0 then -- second op is empty?
    let _ ← tostring H (top - 2) -- result is first op (as string)
    return 2
  else
    -- at least two string values; get as many as possible
    let (n, tl) ← gather H total top total 1 (tsvalue ((← get).base (top - 1))).length
    let ts ← newstring tl (copied (← get).base top n)
    setslot (top - n) (.string ts)
    return n

/-- Repeat until only 1 result left. -/
def concatLoop (H : Host β σ ε) : ℕ → ℕ → ℕ → ConcatM β σ ε Unit
  | 0, _, _ => throw .loop
  | fuel + 1, total, last => do
    let n ← pass H total last
    if 1 < total - (n - 1) then concatLoop H fuel (total - (n - 1)) (last - (n - 1))

def luaV_concat (H : Host β σ ε) (total last : ℕ) : ConcatM β σ ε Unit := concatLoop H total total last

/-! ### Two operands at a time -/

abbrev WorldM (β σ ε : Type) := EStateM (Error β ε) σ

/-- The text of a string or a number -/
def Value.text (H : Host β σ ε) : Value β → Option TString
  | string s => some s
  | number n => some (H.num2str n)
  | other _ => none

/-- The joined text, unless it is too long -/
def join (s t : TString) : WorldM β σ ε (Value β) :=
  if h : (s.data ++ t.data).length ≤ MAXSSIZE then pure (.string ⟨s.data ++ t.data, h⟩) else throw .overflow

/-- The metamethod of the left operand, else of the right one -/
def callConcat (H : Host β σ ε) (left right : Value β) : WorldM β σ ε (Value β) := fun w =>
  match (H.gettmbyobj w left).or (H.gettmbyobj w right) with
  | none => .error (.concaterror left right) w
  | some tm =>
    match H.call tm left right w with
    | .ok v w => .ok v w
    | .error e w => .error (.raised e) w

def combine (H : Host β σ ε) (left right : Value β) : WorldM β σ ε (Value β) :=
  match left.text H, right.text H with
  | some s, some t => join s t
  | _, _ => callConcat H left right

/-- The operands are combined from the right. -/
def rightFold (H : Host β σ ε) : Value β → List (Value β) → WorldM β σ ε (Value β)
  | v, [] => pure v
  | v, w :: rest => do combine H v (← rightFold H w rest)

/-- The same, with the operands in front of a value, the nearest first -/
def foldBack (H : Host β σ ε) : Value β → List (Value β) → WorldM β σ ε (Value β)
  | v, [] => pure v
  | v, a :: rest => do foldBack H (← combine H a v) rest

/-- The errors a concatenation may raise -/
def Error.Raised : Error β ε → Prop
  | overflow => True
  | concaterror _ _ => True
  | raised _ => True
  | _ => False

section Fold

variable {H : Host β σ ε} {v a : Value β} {as rest : List (Value β)}

theorem combine_raised {left right : Value β} {e : Error β ε} {w w' : σ}
    (h : combine H left right w = .error e w') : e.Raised := by
  have hcall : ∀ w, callConcat H left right w = .error e w' → e.Raised := by
    intro w h
    unfold callConcat at h
    split at h
    · cases h
      trivial
    · split at h
      · cases h
      · cases h
        trivial
  unfold combine at h
  cases hl : left.text H with
  | none =>
    rw [hl] at h
    exact hcall w h
  | some u =>
    cases hr : right.text H with
    | none =>
      rw [hl, hr] at h
      exact hcall w h
    | some t =>
      rw [hl, hr] at h
      dsimp only at h
      unfold join at h
      split at h
      · cases h
      · cases h
        trivial

theorem rightFold_raised {e : Error β ε} {w w' : σ} (h : rightFold H v as w = .error e w') : e.Raised := by
  induction as generalizing v w with
  | nil => cases h
  | cons a as ih =>
    have hbind : (rightFold H a as >>= fun r => combine H v r) w = .error e w' := h
    rw [run_bind] at hbind
    cases hrest : rightFold H a as w with
    | ok r w₁ =>
      rw [hrest] at hbind
      exact combine_raised hbind
    | error e' w₁ =>
      rw [hrest] at hbind
      cases hbind
      exact ih hrest

theorem rightFold_concat (v w a : Value β) (as : List (Value β)) :
    rightFold H v (as ++ [w, a]) = combine H w a >>= fun r => rightFold H v (as ++ [r]) := by
  induction as generalizing v with
  | nil =>
    show (rightFold H w [a] >>= fun r => combine H v r) = _
    show ((pure a >>= fun r => combine H w r) >>= fun r => combine H v r) = combine H w a >>= fun r =>
      (pure r >>= fun r => combine H v r)
    simp only [pure_bind]
  | cons b as ih =>
    show (rightFold H b (as ++ [w, a]) >>= fun r => combine H v r) = _
    rw [ih, bind_assoc]
    rfl

/-- Both ways of folding agree. -/
theorem rightFold_eq_foldBack (v : Value β) (as : List (Value β)) (a : Value β) :
    rightFold H v (as.reverse ++ [a]) = foldBack H a (as ++ [v]) := by
  induction as generalizing a with
  | nil =>
    show (pure a >>= fun r => combine H v r) = combine H v a >>= fun r => pure r
    simp only [pure_bind, bind_pure]
  | cons w as ih =>
    rw [List.reverse_cons, List.append_assoc]
    show rightFold H v (as.reverse ++ [w, a]) = _
    rw [rightFold_concat]
    show _ = combine H w a >>= fun r => foldBack H r (as ++ [v])
    exact congrArg _ (funext fun r => ih r)

end Fold

/-! ### The slots -/

section Slots

variable {H : Host β σ ε} {base base' : ℕ → Value β} {s : State β σ} {i k n m top tl fuel : ℕ} {t : TString}

/-- The operands below the slot `i`, the nearest first -/
def below (base : ℕ → Value β) : ℕ → ℕ → List (Value β)
  | _, 0 => []
  | i, k + 1 => base (i - 1) :: below base (i - 1) k

theorem below_congr (h : ∀ j, j < i → base' j = base j) (hk : k ≤ i) : below base' i k = below base i k := by
  induction k generalizing i with
  | zero => rfl
  | succ k ih =>
    show base' (i - 1) :: below base' (i - 1) k = base (i - 1) :: below base (i - 1) k
    rw [h (i - 1) (by omega), ih (fun j hj => h j (by omega)) (by omega)]

theorem copied_congr (h : ∀ j, top - n ≤ j → base' j = base j) : copied base' top n = copied base top n := by
  induction n with
  | zero => rfl
  | succ n ih =>
    show tsvalue (base' (top - (n + 1))) ++ copied base' top n = tsvalue (base (top - (n + 1))) ++ copied base top n
    rw [h _ le_rfl, ih fun j hj => h j (by omega)]

theorem tostring_run (H : Host β σ ε) (s : State β σ) (i : ℕ) :
    tostring H i s = match (s.base i).text H with
      | some t => .ok true ⟨Function.update s.base i (.string t), s.world⟩
      | none => .ok false s := by
  show (match s.base i with
    | .string _ => pure true
    | .number n => do
      setslot i (.string (H.num2str n))
      return true
    | .other _ => pure false : ConcatM β σ ε Bool) s = _
  cases hv : s.base i with
  | string t =>
    have hsame : Function.update s.base i (.string t) = s.base := by
      rw [← hv, Function.update_eq_self]
    show EStateM.Result.ok true s = EStateM.Result.ok true ⟨Function.update s.base i (.string t), s.world⟩
    rw [hsame]
  | number d => rfl
  | other b => rfl

theorem isText_iff {v : Value β} : v.isText = true ↔ ∃ t, v.text H = some t := by
  cases v with
  | string t => exact iff_of_true rfl ⟨t, rfl⟩
  | number d => exact iff_of_true rfl ⟨H.num2str d, rfl⟩
  | other b => exact iff_of_false Bool.false_ne_true fun ⟨t, ht⟩ => by cases ht

/-- Two texts are joined, or are too long. -/
theorem combine_text {a : Value β} {u t : TString} (ha : a.text H = some u) :
    combine H a (.string t) = join u t := by
  unfold combine
  rw [ha]
  rfl

/-- What `gather` leaves: more operands are joined, and the fold goes on with them; or they are too long. -/
def Gathers (H : Host β σ ε) (s : State β σ) (top i k n : ℕ) (t : TString)
    (r : EStateM.Result (Error β ε) (State β σ) (ℕ × ℕ)) : Prop :=
  (∃ m t' base', r = .ok (n + m, t'.data.length) ⟨base', s.world⟩ ∧ m ≤ k ∧
      (0 < k → (s.base (i - 1)).isText = true → 0 < m) ∧ copied base' top (n + m) = t'.data ∧
      (∀ j, j < i - m ∨ i ≤ j → base' j = s.base j) ∧
      foldBack H (.string t) (below s.base i k) = foldBack H (.string t') (below s.base (i - m) (k - m))) ∨
    ∃ base', r = .error .overflow ⟨base', s.world⟩ ∧ (∀ j, j < i - k ∨ i ≤ j → base' j = s.base j) ∧
      ∀ w, foldBack H (.string t) (below s.base i k) w = .error .overflow w

theorem gather_spec (hn : i + n = top) (hk : k ≤ i) (ht : copied s.base top n = t.data) (hfuel : k ≤ fuel) :
    Gathers H s top i k n t (gather H (n + k) top fuel n t.data.length s) := by
  induction k generalizing s i n t fuel with
  | zero =>
    refine Or.inl ⟨0, t, s.base, ?_, le_rfl, fun h0 => absurd h0 (Nat.lt_irrefl 0), ht, fun _ _ => rfl, rfl⟩
    cases fuel with
    | zero => rfl
    | succ fuel =>
      unfold gather
      rw [if_neg (by omega)]
      rfl
  | succ k ih =>
    obtain ⟨fuel, rfl⟩ : ∃ f, fuel = f + 1 := ⟨fuel - 1, by omega⟩
    have hslot : top - n - 1 = i - 1 := by omega
    unfold gather
    rw [if_pos (by omega), hslot, run_bind, tostring_run]
    cases htext : (s.base (i - 1)).text H with
    | none =>
      refine Or.inl ⟨0, t, s.base, rfl, by omega, fun _ hisText => ?_, ht, fun _ _ => rfl, rfl⟩
      obtain ⟨u, hu⟩ := (@isText_iff β σ ε H _).mp hisText
      rw [htext] at hu
      cases hu
    | some u =>
      set s' : State β σ := ⟨Function.update s.base (i - 1) (.string u), s.world⟩ with hs'
      have hother : ∀ j, j ≠ i - 1 → s'.base j = s.base j := fun j hj => Function.update_of_ne hj _ _
      have hself : s'.base (i - 1) = .string u := Function.update_self _ _ _
      have hbelow : ∀ m, below s'.base (i - 1 - m) (k - m) = below s.base (i - 1 - m) (k - m) := fun m =>
        below_congr (fun j hj => hother j (by omega)) (by omega)
      have hsub : sizeSub MAXSSIZE t.data.length = MAXSSIZE - t.data.length := by
        have := t.short
        unfold sizeSub MAXSSIZE
        unfold MAXSSIZE at this
        omega
      have hstep : foldBack H (.string t) (below s.base i (k + 1))
          = join u t >>= fun r => foldBack H r (below s.base (i - 1) k) := by
        show combine H (s.base (i - 1)) (.string t) >>= _ = _
        rw [combine_text htext]
      show Gathers H s top i (k + 1) n t
        ((do
          if sizeSub MAXSSIZE t.data.length < (tsvalue (s'.base (i - 1))).length then throw .overflow
          gather H (n + (k + 1)) top fuel (n + 1) (sizeAdd t.data.length (tsvalue (s'.base (i - 1))).length) :
          ConcatM β σ ε (ℕ × ℕ)) s')
      rw [hself, hsub]
      by_cases hlong : MAXSSIZE - t.data.length < (tsvalue (.string u : Value β)).length
      · have hno : ¬(u.data ++ t.data).length ≤ MAXSSIZE := by
          have hu : MAXSSIZE - t.data.length < u.data.length := hlong
          rw [List.length_append]
          omega
        rw [if_pos hlong]
        refine Or.inr ⟨s'.base, rfl, fun j hj => hother j (by omega), fun w => ?_⟩
        rw [hstep]
        unfold join
        rw [dif_neg hno]
        rfl
      · have hu : u.data.length ≤ MAXSSIZE - t.data.length := not_lt.mp hlong
        have ht' := t.short
        have hshort : (u.data ++ t.data).length ≤ MAXSSIZE := by
          rw [List.length_append]
          omega
        have hlen : sizeAdd t.data.length (tsvalue (.string u : Value β)).length = (u.data ++ t.data).length := by
          show (t.data.length + u.data.length) % 2 ^ 64 = _
          rw [List.length_append] at hshort ⊢
          unfold MAXSSIZE at hshort
          omega
        have hcopied : copied s'.base top (n + 1) = u.data ++ t.data := by
          show tsvalue (s'.base (top - (n + 1))) ++ copied s'.base top n = _
          rw [show top - (n + 1) = i - 1 from by omega, hself, copied_congr fun j hj => hother j (by omega), ht]
          rfl
        rw [if_neg hlong, hlen]
        have hfold : foldBack H (.string t) (below s.base i (k + 1))
            = foldBack H (.string ⟨u.data ++ t.data, hshort⟩) (below s.base (i - 1) k) := by
          rw [hstep]
          unfold join
          rw [dif_pos hshort]
          exact pure_bind _ _
        have hbelow0 : below s'.base (i - 1) k = below s.base (i - 1) k := hbelow 0
        have hrest := @ih s' (i - 1) (n + 1) fuel ⟨u.data ++ t.data, hshort⟩ (by omega) (by omega) hcopied (by omega)
        rw [show n + 1 + k = n + (k + 1) from by omega] at hrest
        rcases hrest with ⟨m, t', base', hrun, hm, _, hcop, hframe, hfold'⟩ | ⟨base', hrun, hframe, hover⟩
        · refine Or.inl ⟨m + 1, t', base', ?_, by omega, fun _ _ => Nat.succ_pos m, ?_, fun j hj => ?_, ?_⟩
          · rw [show n + (m + 1) = n + 1 + m from by omega]
            exact hrun
          · rw [show n + (m + 1) = n + 1 + m from by omega]
            exact hcop
          · rw [hframe j (by omega)]
            exact hother j (by omega)
          · rw [hbelow0, hbelow m] at hfold'
            rw [hfold, hfold', show i - (m + 1) = i - 1 - m from by omega, Nat.add_sub_add_right]
        · refine Or.inr ⟨base', hrun, fun j hj => ?_, fun w => ?_⟩
          · rw [hframe j (by omega)]
            exact hother j (by omega)
          · rw [hfold, ← hbelow0]
            exact hover w

/-- What a pass leaves: it handled some of the operands, and the fold goes on with their result; or it raised an
error. -/
def Passes (H : Host β σ ε) (s : State β σ) (total last : ℕ)
    (r : EStateM.Result (Error β ε) (State β σ) ℕ) : Prop :=
  (∃ n base' w, r = .ok n ⟨base', w⟩ ∧ 2 ≤ n ∧ n ≤ total ∧ (∀ j, j < last - (n - 1) ∨ last < j → base' j = s.base j) ∧
      foldBack H (s.base last) (below s.base last (total - 1)) s.world
        = foldBack H (base' (last - (n - 1))) (below s.base (last - (n - 1)) (total - n)) w) ∨
    ∃ e base' w, r = .error e ⟨base', w⟩ ∧ (∀ j, j < last + 1 - total ∨ last < j → base' j = s.base j) ∧
      foldBack H (s.base last) (below s.base last (total - 1)) s.world = .error e w

section Pass

variable {total last : ℕ}

/-- The two rightmost operands -/
theorem foldBack_below (base : ℕ → Value β) (h2 : 2 ≤ total) (w : σ) :
    foldBack H (base last) (below base last (total - 1)) w
      = (combine H (base (last - 1)) (base last) >>= fun r => foldBack H r (below base (last - 1) (total - 2))) w := by
  obtain ⟨k, rfl⟩ : ∃ k, total = k + 2 := ⟨total - 2, by omega⟩
  rfl

/-- Two operands that are not both texts -/
theorem pass_call (h2 : 2 ≤ total) (hlast : total ≤ last + 1)
    (hno : (s.base (last - 1)).text H = none ∨ (s.base last).text H = none) :
    Passes H s total last ((do
      if !(← call_binTM H (s.base (last - 1)) (s.base last) (last - 1)) then
        throw (.concaterror (s.base (last - 1)) (s.base last))
      return 2 : ConcatM β σ ε ℕ) s) := by
  have hcombine : combine H (s.base (last - 1)) (s.base last) = callConcat H (s.base (last - 1)) (s.base last) := by
    unfold combine
    rcases hno with h | h
    · rw [h]
    · rw [h]
      cases (s.base (last - 1)).text H <;> rfl
  have hfold := @foldBack_below β σ ε H total last s.base h2 s.world
  rw [hcombine, run_bind] at hfold
  unfold callConcat at hfold
  rw [run_bind]
  unfold call_binTM
  cases htm : (H.gettmbyobj s.world (s.base (last - 1))).or (H.gettmbyobj s.world (s.base last)) with
  | none =>
    rw [htm] at hfold
    exact Or.inr ⟨_, s.base, s.world, rfl, fun _ _ => rfl, hfold⟩
  | some tm =>
    rw [htm] at hfold
    dsimp only at hfold ⊢
    cases hcall : H.call tm (s.base (last - 1)) (s.base last) s.world with
    | ok v w =>
      rw [hcall] at hfold
      refine Or.inl ⟨2, _, w, rfl, le_rfl, h2, fun j hj => Function.update_of_ne (by omega) _ _, ?_⟩
      show _ = foldBack H (Function.update s.base (last - 1) v (last - 1)) _ w
      rw [Function.update_self]
      exact hfold
    | error e w =>
      rw [hcall] at hfold
      exact Or.inr ⟨_, s.base, w, rfl, fun _ _ => rfl, hfold⟩

/-- Only the text of the right operand counts. -/
theorem foldBack_text (h2 : 2 ≤ total) {v : Value β} (hv : v.text H = some t)
    (hleft : (base (last - 1)).isText = true) :
    foldBack H v (below base last (total - 1)) = foldBack H (.string t) (below base last (total - 1)) := by
  obtain ⟨k, rfl⟩ : ∃ k, total = k + 2 := ⟨total - 2, by omega⟩
  obtain ⟨u, hu⟩ := (@isText_iff β σ ε H _).mp hleft
  have hsame : combine H (base (last - 1)) v = combine H (base (last - 1)) (.string t) := by
    rw [combine_text hu]
    unfold combine
    rw [hu, hv]
  show (combine H (base (last - 1)) v >>= _) = (combine H (base (last - 1)) (.string t) >>= _)
  rw [hsame]

/-- The buffer has room for the bytes. -/
theorem newstring_run (t : TString) (s : State β σ) :
    (newstring t.data.length t.data : ConcatM β σ ε TString) s = .ok t s := by
  have hshort := t.short
  unfold newstring
  rw [if_neg (fun hbig => absurd hshort (not_le.mpr hbig.2)), if_neg (Nat.lt_irrefl _), dif_pos hshort]
  rfl

theorem pass_spec (h2 : 2 ≤ total) (hlast : total ≤ last + 1) : Passes H s total last (pass H total last s) := by
  have htop : last + 1 - 2 = last - 1 := by omega
  have htop' : last + 1 - 1 = last := by omega
  unfold pass
  dsimp only
  rw [htop, htop']
  cases hleft : (s.base (last - 1)).text H with
  | none =>
    have hnot : (s.base (last - 1)).isText = false := by
      rw [← Bool.not_eq_true]
      intro htext
      obtain ⟨u, hu⟩ := (@isText_iff β σ ε H _).mp htext
      rw [hleft] at hu
      cases hu
    have hcall := pass_call h2 hlast (Or.inl hleft)
    rw [run_bind, run_get]
    dsimp only
    rw [hnot]
    exact hcall
  | some u =>
    have htext : (s.base (last - 1)).isText = true := (@isText_iff β σ ε H _).mpr ⟨u, hleft⟩
    rw [run_bind, run_get]
    dsimp only
    rw [htext, if_pos rfl, run_bind, tostring_run]
    cases hright : (s.base last).text H with
    | none => exact pass_call h2 hlast (Or.inr hright)
    | some t =>
      set s' : State β σ := ⟨Function.update s.base last (.string t), s.world⟩ with hs'
      have hother : ∀ j, j ≠ last → s'.base j = s.base j := fun j hj => Function.update_of_ne hj _ _
      have hself : s'.base last = .string t := Function.update_self _ _ _
      have hbelow : ∀ m, below s'.base (last - m) (total - 1 - m) = below s.base (last - m) (total - 1 - m) := fun m =>
        below_congr (fun j hj => hother j (by omega)) (by omega)
      have hfold : foldBack H (s.base last) (below s.base last (total - 1))
          = foldBack H (.string t) (below s'.base last (total - 1)) := by
        rw [foldBack_text h2 hright htext]
        exact congrArg _ (hbelow 0).symm
      show Passes H s total last ((do
        if (tsvalue (s'.base last)).length = 0 then
          let _ ← tostring H (last - 1)
          return 2
        else
          let r ← gather H total (last + 1) total 1 (tsvalue ((← get).base last)).length
          let ts ← newstring r.2 (copied (← get).base (last + 1) r.1)
          setslot (last + 1 - r.1) (.string ts)
          return r.1 : ConcatM β σ ε ℕ) s')
      rw [hself]
      by_cases hempty : (tsvalue (.string t : Value β)).length = 0
      · have ht : t.data = [] := List.eq_nil_of_length_eq_zero hempty
        have hleft' : (s'.base (last - 1)).text H = some u := by
          rw [hother (last - 1) (by omega)]
          exact hleft
        have hjoin : (join u t : WorldM β σ ε (Value β)) = pure (.string u) := by
          unfold join
          simp only [ht, List.append_nil, u.short, dite_true]
        rw [if_pos hempty, run_bind, tostring_run, hleft']
        refine Or.inl ⟨2, _, s.world, rfl, le_rfl, h2, fun j hj => ?_, ?_⟩
        · rw [Function.update_of_ne (by omega)]
          exact hother j (by omega)
        · show _ = foldBack H (Function.update s'.base (last - 1) (.string u) (last - 1))
            (below s.base (last - 1) (total - 2)) s.world
          rw [Function.update_self, foldBack_text h2 hright htext]
          obtain ⟨k, rfl⟩ : ∃ k, total = k + 2 := ⟨total - 2, by omega⟩
          show (combine H (s.base (last - 1)) (.string t) >>= _) s.world = _
          rw [combine_text hleft, hjoin]
          rfl
      · rw [if_neg hempty]
        have hcopied : copied s'.base (last + 1) 1 = t.data := by
          show tsvalue (s'.base last) ++ [] = _
          rw [hself, List.append_nil]
          rfl
        have hgather := @gather_spec β σ ε H s' last (total - 1) 1 (last + 1) total t rfl (by omega) hcopied (by omega)
        rw [show 1 + (total - 1) = total from by omega] at hgather
        have hlen : (tsvalue (s'.base last)).length = t.data.length := by
          rw [hself]
          rfl
        rcases hgather with ⟨m, t', base', hrun, hm, hpos, hcop, hframe, hfold'⟩ | ⟨base', hrun, hframe, hover⟩
        · have hm0 : 0 < m := by
            apply hpos (by omega)
            rw [hother (last - 1) (by omega)]
            exact htext
          have hend : (do
              let r ← gather H total (last + 1) total 1 (tsvalue ((← get).base last)).length
              let ts ← newstring r.2 (copied (← get).base (last + 1) r.1)
              setslot (last + 1 - r.1) (.string ts)
              return r.1 : ConcatM β σ ε ℕ) s'
              = .ok (1 + m) ⟨Function.update base' (last + 1 - (1 + m)) (.string t'), s.world⟩ := by
            rw [run_bind, run_get]
            dsimp only
            rw [run_bind, hlen, hrun]
            show ((newstring t'.data.length (copied base' (last + 1) (1 + m)) >>= fun ts => do
              setslot (last + 1 - (1 + m)) (.string ts)
              return 1 + m : ConcatM β σ ε ℕ)) ⟨base', s.world⟩ = _
            rw [hcop, run_bind, newstring_run]
            rfl
          rw [hend]
          refine Or.inl ⟨1 + m, _, s.world, rfl, by omega, by omega, fun j hj => ?_, ?_⟩
          · rw [Function.update_of_ne (by omega), hframe j (by omega)]
            exact hother j (by omega)
          · rw [hfold, hfold', show last - (1 + m - 1) = last + 1 - (1 + m) from by omega, Function.update_self,
              show last + 1 - (1 + m) = last - m from by omega, hbelow m,
              show total - (1 + m) = total - 1 - m from by omega]
        · have hend : (do
              let r ← gather H total (last + 1) total 1 (tsvalue ((← get).base last)).length
              let ts ← newstring r.2 (copied (← get).base (last + 1) r.1)
              setslot (last + 1 - r.1) (.string ts)
              return r.1 : ConcatM β σ ε ℕ) s' = .error .overflow ⟨base', s.world⟩ := by
            rw [run_bind, run_get]
            dsimp only
            rw [run_bind, hlen, hrun]
          rw [hend]
          refine Or.inr ⟨_, base', s.world, rfl, fun j hj => ?_, ?_⟩
          · rw [hframe j (by omega)]
            exact hother j (by omega)
          · rw [hfold]
            exact hover s.world

/-- A call ends as a fold does: the value is in the first slot, or the same error is raised; only the slots of the operands
change, and the world is that of the fold. -/
def Folds (s : State β σ) (first last : ℕ) (r : EStateM.Result (Error β ε) (State β σ) Unit) :
    EStateM.Result (Error β ε) σ (Value β) → Prop
  | .ok v w => ∃ base', r = .ok ⟨⟩ ⟨base', w⟩ ∧ base' first = v ∧ ∀ j, j < first ∨ last < j → base' j = s.base j
  | .error e w => ∃ base', r = .error e ⟨base', w⟩ ∧ ∀ j, j < first ∨ last < j → base' j = s.base j

/-- A call on fewer slots -/
theorem Folds.mono {s' : State β σ} {first last' : ℕ} {r : EStateM.Result (Error β ε) (State β σ) Unit}
    {spec : EStateM.Result (Error β ε) σ (Value β)} (h : Folds s' first last' r spec) (hle : last' ≤ last)
    (hsame : ∀ j, j < first ∨ last < j → s'.base j = s.base j) : Folds s first last r spec := by
  cases spec with
  | ok v w =>
    obtain ⟨base', hrun, hv, hframe⟩ := h
    refine ⟨base', hrun, hv, fun j hj => ?_⟩
    rw [hframe j (by omega)]
    exact hsame j hj
  | error e w =>
    obtain ⟨base', hrun, hframe⟩ := h
    refine ⟨base', hrun, fun j hj => ?_⟩
    rw [hframe j (by omega)]
    exact hsame j hj

theorem concatLoop_spec (h2 : 2 ≤ total) (hlast : total ≤ last + 1) (hfuel : total ≤ fuel) :
    Folds s (last + 1 - total) last (concatLoop H fuel total last s)
      (foldBack H (s.base last) (below s.base last (total - 1)) s.world) := by
  induction fuel generalizing s total last with
  | zero => omega
  | succ fuel ih =>
    unfold concatLoop
    rw [run_bind]
    rcases @pass_spec β σ ε H s total last h2 hlast with
      ⟨n, base', w, hrun, hn, hn', hframe, hfold⟩ | ⟨e, base', w, hrun, hframe, hfold⟩
    · rw [hrun, hfold]
      dsimp only
      by_cases hmore : 1 < total - (n - 1)
      · rw [if_pos hmore]
        have hrest := @ih ⟨base', w⟩ (total - (n - 1)) (last - (n - 1)) (by omega) (by omega) (by omega)
        rw [show last - (n - 1) + 1 - (total - (n - 1)) = last + 1 - total from by omega,
          show total - (n - 1) - 1 = total - n from by omega] at hrest
        have hbelow : below base' (last - (n - 1)) (total - n) = below s.base (last - (n - 1)) (total - n) :=
          below_congr (fun j hj => hframe j (Or.inl hj)) (by omega)
        dsimp only at hrest
        rw [hbelow] at hrest
        exact hrest.mono (by omega) fun j hj => hframe j (by omega)
      · rw [if_neg hmore, show total - n = 0 from by omega]
        refine ⟨base', rfl, ?_, fun j hj => hframe j (by omega)⟩
        rw [show last + 1 - total = last - (n - 1) from by omega]
    · rw [hrun, hfold]
      exact ⟨base', rfl, hframe⟩

theorem below_eq_reverse (base : ℕ → Value β) (first k : ℕ) :
    below base (first + k) k = ((List.range k).map fun i => base (first + i)).reverse := by
  induction k with
  | zero => rfl
  | succ k ih =>
    show base (first + k) :: below base (first + k) k = _
    rw [ih, List.range_succ, List.map_append, List.reverse_append]
    rfl

/-- **`luaV_concat`** on two operands or more, from the slot `first` on, combines them from the right; it ends, and the
lengths never overflow. -/
theorem luaV_concat_right_fold (H : Host β σ ε) (s : State β σ) (first k : ℕ) :
    Folds s first (first + k + 1) (luaV_concat H (k + 2) (first + k + 1) s)
        (rightFold H (s.base first) ((List.range (k + 1)).map fun i => s.base (first + 1 + i)) s.world) ∧
      ∀ e s', luaV_concat H (k + 2) (first + k + 1) s = .error e s' → e.Raised := by
  have hloop := @concatLoop_spec β σ ε H s (k + 2) (k + 2) (first + k + 1) (by omega) (by omega) le_rfl
  rw [show first + k + 1 + 1 - (k + 2) = first from by omega] at hloop
  have hback : below s.base (first + k + 1) (k + 2 - 1)
      = ((List.range k).map fun i => s.base (first + 1 + i)).reverse ++ [s.base first] := by
    have hall := below_eq_reverse s.base first (k + 1)
    rw [List.range_succ_eq_map, List.map_cons, List.reverse_cons, List.map_map] at hall
    rw [show first + k + 1 = first + (k + 1) from rfl, show k + 2 - 1 = k + 1 from rfl, hall]
    congr 2
    apply List.map_congr_left
    intro i _
    show s.base (first + (i + 1)) = s.base (first + 1 + i)
    rw [show first + (i + 1) = first + 1 + i from by omega]
  have hright := rightFold_eq_foldBack (H := H) (s.base first)
    ((List.range k).map fun i => s.base (first + 1 + i)).reverse (s.base (first + k + 1))
  rw [List.reverse_reverse, ← hback] at hright
  have hfolds : Folds s first (first + k + 1) (luaV_concat H (k + 2) (first + k + 1) s)
      (rightFold H (s.base first) ((List.range (k + 1)).map fun i => s.base (first + 1 + i)) s.world) := by
    rw [List.range_succ, List.map_append, List.map_singleton, show first + 1 + k = first + k + 1 from by omega, hright]
    exact hloop
  refine ⟨hfolds, fun e s' herr => ?_⟩
  rw [herr] at hfolds
  cases hspec : rightFold H (s.base first) ((List.range (k + 1)).map fun i => s.base (first + 1 + i)) s.world with
  | ok v w =>
    rw [hspec] at hfolds
    obtain ⟨_, hrun, _⟩ := hfolds
    cases hrun
  | error e' w =>
    rw [hspec] at hfolds
    obtain ⟨_, hrun, _⟩ := hfolds
    cases hrun
    exact rightFold_raised hspec

end Pass

end Slots

end Luwu.Concat
