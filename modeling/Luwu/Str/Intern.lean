import Luwu.Str.Table

/-!
# Interning

The string of given bytes is found in the table, or made and chained (`luaS_newlstr_spec`,
`luaS_buffinish_spec`, `luaS_newexternallstr_spec`).  `owed` collects the buffers whose callback ran and the
buffers that strings still hold, so a call that takes a buffer adds it there once, whichever way it ends.
-/

namespace Luwu

open Function Luwu.Run Luwu.Chains Luwu.HashChains

/-- The buffer that a callback takes back when the string is freed. -/
def TString.returns (ts : TString) : Option ExtBuffer :=
  match ts.u with
  | .data _ => none
  | .ext b => if b.free_cb.isSome then some b else none

/-- The buffer, if there is a callback for it. -/
def ExtBuffer.handed (b : ExtBuffer) : List ExtBuffer := if b.free_cb.isSome then [b] else []

namespace StringState

def returns (s : StringState) (p : ℕ) : Option ExtBuffer := (s.strings p).bind TString.returns

/-- The buffers that strings hold. -/
def held (s : StringState) : List ExtBuffer := s.objects.filterMap s.returns

/-- The buffers that were handed over: their callback ran, or a string holds them. -/
def owed (s : StringState) : List ExtBuffer := s.freed ++ s.held

end StringState

/-- The string of `str`: chained, and not dead. -/
structure Interned (s : StringState) (ms : List ℕ) (str : Bytes) (p : ℕ) : Prop where
  member : p ∈ ms
  bytes : s.bytes p = some str
  alive : ∀ ts, s.strings p = some ts → ts.isdead = false

/-- What an interning call does to the table: `x` is the string it may add, `bs` are the buffers it takes. -/
structure Interns (s s' : StringState) (ms ms' : List ℕ) (x : Option ℕ) (bs : List ExtBuffer) : Prop where
  ok : StringsOk s' ms'
  keeps : ∀ q ∈ ms, q ∈ ms'
  members : ∀ q ∈ ms', q ∈ ms ∨ x = some q
  bodies : ∀ q, x ≠ some q → (s'.strings q).map TString.body = (s.strings q).map TString.body
  owed : s'.owed.Perm (bs ++ s.owed)

section Intern

variable {s s' s₁ : StringState} {ms ms' xs bms : List ℕ} {p q : ℕ} {ts ts' : TString} {str : Bytes}
  {head fresh x : Option ℕ} {room : Bool} {b : ExtBuffer} {bs : List ExtBuffer}

/-! ### Buffers -/

theorem returns_congr (h : ts'.u = ts.u) : ts'.returns = ts.returns := by
  unfold TString.returns
  rw [h]

theorem returns_of (h : s.strings p = some ts) : s.returns p = ts.returns := by
  unfold StringState.returns
  rw [h]
  rfl

theorem SameBodies.returns (h : SameBodies s s') : s'.returns = s.returns := by
  funext p
  cases hp : s'.strings p with
  | none =>
    have hs := h.symm.strings p
    rw [hp, Option.map_none] at hs
    unfold StringState.returns
    rw [hp, Option.map_eq_none_iff.mp hs]
  | some ts' =>
    obtain ⟨ts, hts, he⟩ := h.symm.string hp
    rw [returns_of hp, returns_of hts, returns_congr (body_fields he).2.2]

theorem SameBodies.owed (h : SameBodies s s') : s'.owed = s.owed := by
  unfold StringState.owed StringState.held
  rw [h.freed, h.objects, h.returns]

/-- A string is written; the others hold what they held. -/
theorem returns_update (hstr : s₁.strings = update s.strings p (some ts)) (hq : q ≠ p) :
    s₁.returns q = s.returns q := by
  unfold StringState.returns
  rw [hstr, update_of_ne hq]

theorem filterMap_returns (hstr : s₁.strings = update s.strings p (some ts)) (hp : p ∉ xs) :
    xs.filterMap s₁.returns = xs.filterMap s.returns := by
  apply List.filterMap_congr
  intro q hq
  exact returns_update hstr (fun he => hp (he ▸ hq))

/-! ### Looking up -/

/-- The search of a chain finds the string of the bytes, if there is one. -/
theorem findstring_spec {fuel : ℕ} (hc : Chain s.next head xs)
    (hx : ∀ p ∈ xs, ∃ ts, s.strings p = some ts ∧ ts.len = ts.getstr.length)
    (hfuel : xs.length ≤ fuel) :
    ∃ r, findstring str str.length fuel head s = .ok r s ∧
      (∀ el, r = some el → el ∈ xs ∧ s.bytes el = some str) ∧
      (r = none → ∀ p ∈ xs, s.bytes p ≠ some str) := by
  induction xs generalizing head fuel with
  | nil =>
    have hnone : head = none := hc
    refine ⟨none, ?_, fun el hel => (by cases hel), fun _ p hp => absurd hp List.not_mem_nil⟩
    rw [hnone]
    cases fuel <;> rfl
  | cons p xs ih =>
    obtain ⟨fuel, rfl⟩ : ∃ n, fuel = n + 1 := ⟨fuel - 1, by simp at hfuel; omega⟩
    obtain ⟨hhead, htail⟩ := hc
    obtain ⟨ts, hp, hlen⟩ := hx p List.mem_cons_self
    rw [next_of hp] at htail
    have hmatch : (ts.len = str.length ∧ str.take str.length = ts.getstr.take str.length) ↔
        ts.getstr = str := by
      rw [hlen, List.take_length]
      constructor
      · intro ⟨hl, he⟩
        rw [he, ← hl, List.take_length]
      · rintro rfl
        exact ⟨rfl, (List.take_length).symm⟩
    rw [hhead]
    unfold findstring
    simp only [run_bind, getstring_run hp, hmatch]
    by_cases heq : ts.getstr = str
    · refine ⟨some p, ?_, fun el hel => ?_, fun hn => (by cases hn)⟩
      · rw [if_pos heq]
        rfl
      · obtain rfl := Option.some.inj hel
        exact ⟨List.mem_cons_self, by rw [bytes_of hp, heq]⟩
    · obtain ⟨r, hrun, hsome, hnone⟩ := ih htail (fun q hq => hx q (List.mem_cons_of_mem p hq))
        (by simpa using hfuel)
      refine ⟨r, ?_, fun el hel => ?_, fun hn q hq => ?_⟩
      · rw [if_neg heq]
        exact hrun
      · exact ⟨List.mem_cons_of_mem p (hsome el hel).1, (hsome el hel).2⟩
      · cases List.mem_cons.mp hq with
        | inl he =>
          rw [he, bytes_of hp]
          exact fun hs => heq (Option.some.inj hs)
        | inr hq => exact hnone hn q hq

/-- The chain of the hash of some bytes has the string of these bytes, if there is one at all. -/
theorem StringsOk.find (h : StringsOk s ms) (str : Bytes) :
    ∃ r, findstring str str.length s.objects.length (s.hash (lmod (luaS_hash str).toNat s.size)) s = .ok r s ∧
      (∀ el, r = some el → el ∈ ms ∧ s.bytes el = some str) ∧
      (r = none → ∀ p ∈ ms, s.bytes p ≠ some str) := by
  obtain ⟨k, hk⟩ := h.pow
  have hlt : lmod (luaS_hash str).toNat s.size < s.size := by
    rw [hk]
    exact lmod_lt _ _
  obtain ⟨xs, hc, hnd, hxs⟩ := h.chains _ hlt
  have hsub : ∀ p ∈ xs, p ∈ ms := fun p hp => ((hxs p).mp hp).1
  obtain ⟨r, hrun, hsome, hnone⟩ := findstring_spec hc
    (fun p hp => by
      obtain ⟨ts, hts, _, hlen⟩ := h.member (hsub p hp)
      exact ⟨ts, hts, hlen⟩)
    (((hnd.subperm hsub).length_le).trans h.length_le)
  refine ⟨r, hrun, fun el hel => ⟨hsub el (hsome el hel).1, (hsome el hel).2⟩, fun hn p hp hb => ?_⟩
  obtain ⟨ts, hts, hhash, _⟩ := h.member hp
  rw [bytes_of hts] at hb
  refine hnone hn p ((hxs p).mpr ⟨hp, ?_⟩) (by rw [bytes_of hts, hb])
  rw [bucketIn_of hts, hhash, Option.some.inj hb]

/-! ### Colours -/

/-- The colour of one string is written. -/
theorem sameBodies_setString (hp : s.strings p = some ts) (hb : ts'.body = ts.body) :
    SameBodies s (s.setString p ts') := by
  refine ⟨rfl, rfl, fun q => ?_⟩
  show Option.map _ (update s.strings p _ q) = _
  by_cases he : q = p
  · subst he
    rw [update_self, hp, Option.map_some, Option.map_some, hb]
  · rw [update_of_ne he]

theorem StringsOk.setcolor (h : StringsOk s ms) (hp : s.strings p = some ts)
    (hb : ts'.body = ts.body) (hn : ts'.next = ts.next) : StringsOk (s.setString p ts') ms := by
  apply h.recolor (sameBodies_setString hp hb) rfl rfl rfl
  intro q
  rw [next_setString]
  by_cases he : q = p
  · subst he
    rw [if_pos rfl, hn, next_of hp]
  · rw [if_neg he]

theorem keepalive_run (hp : s.strings p = some ts) :
    keepalive p s = .ok ⟨⟩ (if ts.isdead then s.setString p { ts with otherwhite := !ts.otherwhite } else s) := by
  unfold keepalive
  simp only [run_bind, getstring_run hp]
  cases ts.isdead <;> rfl

theorem Interns.of_same (hs : SameBodies s s') (hok : StringsOk s' ms) : Interns s s' ms ms x [] where
  ok := hok
  keeps := fun _ hq => hq
  members := fun _ hq => Or.inl hq
  bodies := fun q _ => hs.strings q
  owed := by
    rw [hs.owed]
    exact List.Perm.refl _

/-- A string that was found is the string of its bytes, also when it was dead. -/
theorem keepalive_spec (h : StringsOk s ms) (hp : p ∈ ms) (hb : s.bytes p = some str) :
    ∃ s', keepalive p s = .ok ⟨⟩ s' ∧ Interns s s' ms ms x [] ∧ Interned s' ms str p := by
  obtain ⟨ts, hts, _⟩ := h.member hp
  rw [bytes_of hts] at hb
  refine ⟨_, keepalive_run hts, ?_⟩
  cases hd : ts.isdead with
  | false =>
    refine ⟨Interns.of_same (SameBodies.refl s) h, hp, (bytes_of hts).trans hb, fun ts' hts' => ?_⟩
    obtain rfl : ts = ts' := Option.some.inj (hts.symm.trans hts')
    exact hd
  | true =>
    have hwhite : ts.otherwhite = true := by
      unfold TString.isdead at hd
      exact (Bool.and_eq_true_iff.mp hd).1
    refine ⟨Interns.of_same (sameBodies_setString hts rfl) (h.setcolor hts rfl rfl), hp, ?_, ?_⟩
    · rw [if_pos rfl, bytes_of (update_self p _ _)]
      exact hb
    · intro ts' hts'
      have he : some { ts with otherwhite := !ts.otherwhite } = some ts' := (update_self p _ _).symm.trans hts'
      rw [← Option.some.inj he]
      unfold TString.isdead
      rw [hwhite]
      rfl

/-! ### Chaining -/

/-- A string that is not chained is written, or a new one is made. -/
theorem StringsOk.setLoose (h : StringsOk s ms) (hp : p ∉ ms)
    (hstr : s₁.strings = update s.strings p (some ts))
    (hobj : ∀ q, q ∈ s₁.objects ↔ q = p ∨ q ∈ s.objects) (hnd : s₁.objects.Nodup)
    (hsize : s₁.size = s.size) (hhash : s₁.hash = s.hash) (hnuse : s₁.nuse = s.nuse)
    (hnext : ts.next = none) (hlen : ts.len = ts.getstr.length) : StringsOk s₁ ms := by
  have hother : ∀ q, q ≠ p → s₁.strings q = s.strings q := fun q hq => by
    rw [hstr, update_of_ne hq]
  have hself : s₁.strings p = some ts := by rw [hstr, update_self]
  have hne : ∀ q ∈ ms, q ≠ p := fun q hq he => hp (he ▸ hq)
  refine ⟨hsize ▸ h.pow, h.nodup, hnuse.trans h.nuse, ?_, ?_, ?_, ?_, ?_, ?_, hnd⟩
  · rw [hsize]
    refine h.chains.congr (fun q hq _ => ?_) (fun b _ => by rw [hhash]) (fun q hq => ?_) (fun _ => Iff.rfl)
    · unfold StringState.next
      rw [hother q (hne q hq)]
    · unfold StringState.bucketIn
      rw [hother q (hne q hq)]
  · intro q hq
    rw [hother q (hne q hq)]
    exact h.interned q hq
  · intro q r hq hr hb
    unfold StringState.bytes at hb
    rw [hother q (hne q hq), hother r (hne r hr)] at hb
    exact h.unique q r hq hr hb
  · intro q tq hq
    by_cases he : q = p
    · subst he
      rw [hself] at hq
      rw [← Option.some.inj hq]
      exact hlen
    · exact h.lens q tq ((hother q he).symm.trans hq)
  · intro q tq hq hqm
    by_cases he : q = p
    · subst he
      rw [hself] at hq
      rw [← Option.some.inj hq]
      exact hnext
    · exact h.loose q tq ((hother q he).symm.trans hq) hqm
  · intro q
    rw [hobj]
    by_cases he : q = p
    · subst he
      rw [hself]
      exact iff_of_true (Option.some_ne_none _) (Or.inl rfl)
    · rw [hother q he, h.alloc, or_iff_right he]

/-- The string in front of its bucket. -/
def StringState.chained (s : StringState) (p : ℕ) (ts : TString) : StringState :=
  { s.setString p { ts with next := s.hash (lmod ts.hash.toNat s.size) } with
    hash := update s.hash (lmod ts.hash.toNat s.size) (some p), nuse := s.nuse + 1 }

theorem relinked_chained (hp : s.strings p = some ts) : Relinked s (s.chained p ts) :=
  ⟨rfl, rfl, (relinked_setString hp _).strings⟩

/-- A string with new bytes becomes a member. -/
theorem StringsOk.chain (h : StringsOk s ms) (hp : s.strings p = some ts) (hpm : p ∉ ms)
    (hhash : ts.hash = luaS_hash ts.getstr) (hnew : ∀ q ∈ ms, s.bytes q ≠ some ts.getstr) :
    StringsOk (s.chained p ts) (p :: ms) := by
  have hre := relinked_chained hp
  have hnext : ∀ q, (s.chained p ts).next q =
      if q = p then s.hash (lmod ts.hash.toNat s.size) else s.next q := fun q => next_setString q
  have hbytes : ∀ q, (s.chained p ts).bytes q = s.bytes q := hre.same.bytes
  have hne : ∀ q ∈ ms, q ≠ p := fun q hq he => hpm (he ▸ hq)
  refine ⟨h.pow, List.nodup_cons.mpr ⟨hpm, h.nodup⟩, ?_, ?_, ?_, ?_, ?_, ?_, ?_, h.objects⟩
  · show s.nuse + 1 = _
    rw [h.nuse, List.length_cons, BitVec.ofNat_add]
    rfl
  · have hbucket : s.bucketIn s.size p = lmod ts.hash.toNat s.size := bucketIn_of hp
    have hins := @HashChains.Bucketed.insert _ _ _ (s.chained p ts).next _ (s.chained p ts).hash _ _ _ _ _ h.chains hpm
      (by rw [hnext, if_pos rfl, hbucket])
      (fun q hq => by rw [hnext, if_neg (hne q hq)])
      (fun c _ => by
        rw [hbucket]
        exact update_apply _ _ _ _)
    exact hins.congr (fun _ _ _ => rfl) (fun _ _ => rfl) (fun _ _ => hre.same.bucketIn) (fun _ => Iff.rfl)
  · intro q hq
    cases List.mem_cons.mp hq with
    | inl he =>
      subst he
      exact ⟨_, update_self q _ _, hhash⟩
    | inr hq =>
      obtain ⟨tq, htq, hh⟩ := h.interned q hq
      exact ⟨tq, (update_of_ne (hne q hq) _ _).trans htq, hh⟩
  · intro q r hq hr hb
    rw [hbytes, hbytes] at hb
    cases List.mem_cons.mp hq with
    | inl hqp =>
      cases List.mem_cons.mp hr with
      | inl hrp => rw [hqp, hrp]
      | inr hr =>
        rw [hqp, bytes_of hp] at hb
        exact absurd hb.symm (hnew r hr)
    | inr hq =>
      cases List.mem_cons.mp hr with
      | inl hrp =>
        rw [hrp, bytes_of hp] at hb
        exact absurd hb (hnew q hq)
      | inr hr => exact h.unique q r hq hr hb
  · intro q tq hq
    obtain ⟨tq', hq', he⟩ := hre.same.symm.string hq
    obtain ⟨_, h2, h3⟩ := body_fields he
    rw [← h2, ← getstr_congr h3]
    exact h.lens q tq' hq'
  · intro q tq hq hqm
    rw [List.mem_cons, not_or] at hqm
    exact h.loose q tq ((update_of_ne hqm.1 _ _).symm.trans hq) hqm.2
  · intro q
    show update s.strings p _ q ≠ none ↔ q ∈ s.objects
    by_cases he : q = p
    · subst he
      rw [update_self, ← h.alloc, hp]
      exact iff_of_true (Option.some_ne_none _) (Option.some_ne_none _)
    · rw [update_of_ne he]
      exact h.alloc q

theorem chainstring_run (hp : s.strings p = some ts) :
    chainstring room p ts.hash s =
      if s.size < (s.nuse + 1).toNat ∧ s.size ≤ (2 ^ 31 - 1) / 2 then
        luaS_resize room (s.size * 2) (s.chained p ts)
      else .ok ⟨⟩ (s.chained p ts) := by
  unfold chainstring
  simp only [run_bind, getstring_run hp, run_get, setstring_run, run_modify]
  show (if s.size < (s.nuse + 1).toNat ∧ s.size ≤ (2 ^ 31 - 1) / 2 then luaS_resize room (s.size * 2)
    else pure ⟨⟩ : StringM Unit) (s.chained p ts) = _
  rw [run_ite]
  rfl

/-- The table grows after the string is in it, so a failure leaves it chained. -/
theorem chainstring_spec (h : StringsOk s ms) (hp : s.strings p = some ts) (hpm : p ∉ ms)
    (hhash : ts.hash = luaS_hash ts.getstr) (hnew : ∀ q ∈ ms, s.bytes q ≠ some ts.getstr) (room : Bool) :
    ∃ s', (chainstring room p ts.hash s = .ok ⟨⟩ s' ∨
        room = false ∧ chainstring room p ts.hash s = .error .errmem s') ∧
      StringsOk s' (p :: ms) ∧ Relinked s s' := by
  have hok := h.chain hp hpm hhash hnew
  have hre := relinked_chained hp
  rw [chainstring_run hp]
  split
  · cases room with
    | false => exact ⟨_, Or.inr ⟨rfl, rfl⟩, hok, hre⟩
    | true =>
      obtain ⟨k, hk⟩ := h.pow
      obtain ⟨s', hrun, hok', hre'⟩ := luaS_resize_spec hok (k + 1)
      refine ⟨s', Or.inl ?_, hok', hre.trans hre'⟩
      rw [hk, ← Nat.pow_succ]
      exact hrun
  · exact ⟨_, Or.inl rfl, hok, hre⟩

/-- The call ends in the state `s'`: with the string of the bytes, or with an error of the language. -/
def Ends (r : EStateM.Result StringError StringState ℕ) (s' : StringState) (ms' : List ℕ)
    (str : Bytes) : Prop :=
  (∃ p, r = .ok p s' ∧ Interned s' ms' str p) ∨ ∃ e, e ≠ .fault ∧ r = .error e s'

/-- A string of new bytes that is not chained yet goes into the table. -/
theorem chain_spec (h : StringsOk s ms) (hp : s.strings p = some ts) (hpm : p ∉ ms)
    (hhash : ts.hash = luaS_hash ts.getstr) (hnew : ∀ q ∈ ms, s.bytes q ≠ some ts.getstr)
    (halive : ts.isdead = false) (room : Bool) :
    ∃ s', Ends ((do chainstring room p ts.hash; return p) s) s' (p :: ms) ts.getstr ∧
      (room = true → (do chainstring room p ts.hash; return p) s = .ok p s') ∧
      Interns s s' ms (p :: ms) (some p) [] := by
  obtain ⟨s', hrun, hok, hre⟩ := chainstring_spec h hp hpm hhash hnew room
  refine ⟨s', ?_, fun hroom => ?_, hok, fun q hq => List.mem_cons_of_mem p hq, fun q hq => ?_,
    fun q _ => hre.same.strings q, ?_⟩
  · cases hrun with
    | inl hrun =>
      refine Or.inl ⟨p, ?_, List.mem_cons_self, ?_, fun ts' hts' => ?_⟩
      · simp only [run_bind, hrun, run_pure]
      · rw [hre.same.bytes, bytes_of hp]
      · have hs := hre.strings p
        rw [hp, hts'] at hs
        have hu : ts'.unlinked = ts.unlinked := Option.some.inj hs
        have hdead : ts'.isdead = ts'.unlinked.isdead := rfl
        rw [hdead, hu]
        exact halive
    | inr hrun =>
      refine Or.inr ⟨.errmem, by simp, ?_⟩
      simp only [run_bind, hrun.2]
  · cases hrun with
    | inl hrun => simp only [run_bind, hrun, run_pure]
    | inr hrun =>
      rw [hroom] at hrun
      cases hrun.1
  · exact (List.mem_cons.mp hq).symm.imp_right (fun he => congrArg some he.symm)
  · rw [hre.same.owed]
    exact List.Perm.refl _

/-- A block becomes a string. -/
def StringState.made (s : StringState) (p : ℕ) (ts : TString) : StringState :=
  StringState.setString { s with objects := p :: s.objects } p ts

theorem newstring_run (p : ℕ) :
    newstring (some p) s = .ok p { s with objects := p :: s.objects } := rfl

theorem StringsOk.loose_of_fresh (h : StringsOk s ms) (hp : p ∉ s.objects) : p ∉ ms := by
  intro hpm
  obtain ⟨ts, hts, _⟩ := h.member hpm
  exact hp ((h.alloc p).mp (by rw [hts]; exact Option.some_ne_none ts))

/-- The buffer of a new string is owed. -/
theorem owed_made (hp : p ∉ s.objects) : (s.made p ts).owed = s.freed ++ (ts.returns.toList ++ s.held) := by
  have hrest : s.objects.filterMap (s.made p ts).returns = s.held := filterMap_returns rfl hp
  have hself : (s.made p ts).returns p = ts.returns := returns_of (update_self p _ _)
  unfold StringState.owed StringState.held
  show s.freed ++ (p :: s.objects).filterMap (s.made p ts).returns = _
  rw [List.filterMap_cons, hself, hrest]
  cases ts.returns <;> rfl

/-- A new string is not chained yet. -/
theorem made_spec (h : StringsOk s ms) (hp : p ∉ s.objects) (hnext : ts.next = none)
    (hlen : ts.len = ts.getstr.length) :
    Interns s (s.made p ts) ms ms (some p) ts.returns.toList where
  ok := by
    have hstr : (s.made p ts).strings = update s.strings p (some ts) := rfl
    exact h.setLoose (h.loose_of_fresh hp) hstr (fun q => List.mem_cons)
      (List.nodup_cons.mpr ⟨hp, h.objects⟩) rfl rfl rfl hnext hlen
  keeps := fun _ hq => hq
  members := fun _ hq => Or.inl hq
  bodies := by
    intro q hq
    have hqp : q ≠ p := fun he => hq (by rw [he])
    show Option.map _ (update s.strings p _ q) = _
    rw [update_of_ne hqp]
  owed := by
    rw [owed_made hp]
    exact List.perm_append_comm_assoc _ _ _

theorem Interns.trans (h : Interns s s₁ ms ms x bs) (h' : Interns s₁ s' ms ms' x []) :
    Interns s s' ms ms' x bs where
  ok := h'.ok
  keeps := h'.keeps
  members := h'.members
  bodies := fun q hq => (h'.bodies q hq).trans (h.bodies q hq)
  owed := h'.owed.trans h.owed

/-! ### The constructors -/

/-- A new string with new bytes. -/
theorem make_spec (h : StringsOk s ms) (hp : p ∉ s.objects) (hnext : ts.next = none)
    (hlen : ts.len = ts.getstr.length) (hhash : ts.hash = luaS_hash ts.getstr)
    (hnew : ∀ q ∈ ms, s.bytes q ≠ some ts.getstr) (halive : ts.isdead = false) (room : Bool) :
    ∃ s', Ends ((do chainstring room p ts.hash; return p) (s.made p ts)) s' (p :: ms) ts.getstr ∧
      (room = true → (do chainstring room p ts.hash; return p) (s.made p ts) = .ok p s') ∧
      Interns s s' ms (p :: ms) (some p) ts.returns.toList := by
  have hpm := h.loose_of_fresh hp
  have hmade := made_spec h hp hnext hlen
  have hbytes : ∀ q ∈ ms, (s.made p ts).bytes q ≠ some ts.getstr := by
    intro q hq
    have hqp : q ≠ p := fun he => hpm (he ▸ hq)
    have hsame : (s.made p ts).bytes q = s.bytes q := by
      show Option.map _ (update s.strings p _ q) = _
      rw [update_of_ne hqp]
      rfl
    rw [hsame]
    exact hnew q hq
  obtain ⟨s', hends, hroom, hint⟩ :=
    chain_spec hmade.ok (update_self p _ _) hpm hhash hbytes halive room
  exact ⟨s', hends, hroom, hmade.trans hint⟩

theorem newlstr_spec (h : StringsOk s ms) (hfresh : ∀ p, fresh = some p → p ∉ s.objects)
    (hnew : ∀ q ∈ ms, s.bytes q ≠ some str) (room : Bool) :
    ∃ s' ms', Ends (newlstr fresh room str (luaS_hash str) s) s' ms' str ∧
      Interns s s' ms ms' fresh [] := by
  have hsame : Interns s s ms ms fresh [] := Interns.of_same (SameBodies.refl s) h
  unfold newlstr
  rw [run_ite]
  by_cases hbig : MAXSSIZE < str.length
  · rw [if_pos hbig]
    exact ⟨s, ms, Or.inr ⟨_, StringError.noConfusion, rfl⟩, hsame⟩
  · rw [if_neg hbig]
    cases fresh with
    | none => exact ⟨s, ms, Or.inr ⟨.errmem, StringError.noConfusion, rfl⟩, hsame⟩
    | some p =>
      obtain ⟨s', hends, _, hint⟩ := @make_spec _ _ _ ⟨none, luaS_hash str, str.length, .data str, false, false⟩
        h (hfresh p rfl) rfl rfl rfl hnew rfl room
      exact ⟨s', p :: ms, hends, hint⟩

/-- **`luaS_newlstr`** returns the string of the bytes. -/
theorem luaS_newlstr_spec (h : StringsOk s ms) (hfresh : ∀ p, fresh = some p → p ∉ s.objects)
    (room : Bool) (str : Bytes) :
    ∃ s' ms', Ends (luaS_newlstr fresh room str s) s' ms' str ∧ Interns s s' ms ms' fresh [] := by
  obtain ⟨r, hrun, hsome, hnone⟩ := h.find str
  unfold luaS_newlstr
  simp only [run_bind, run_get, strfuel_run, hrun]
  cases r with
  | none => exact newlstr_spec h hfresh (hnone rfl) room
  | some el =>
    obtain ⟨hel, hb⟩ := hsome el rfl
    obtain ⟨s', hkeep, hint, hfound⟩ := keepalive_spec (x := fresh) h hel hb
    refine ⟨s', ms, Or.inl ⟨el, ?_, hfound⟩, hint⟩
    simp only [run_bind, hkeep, run_pure]

/-- **`luaS_bufstart`** makes a string that is not chained. -/
theorem luaS_bufstart_spec (h : StringsOk s ms) (hfresh : ∀ p, fresh = some p → p ∉ s.objects)
    (garbage : Bytes) :
    ∃ s', Interns s s' ms ms fresh [] ∧
      ((∃ p ts, fresh = some p ∧ luaS_bufstart fresh garbage s = .ok p s' ∧ s'.strings p = some ts ∧
          ts.u = .data garbage) ∨
        ∃ e, e ≠ .fault ∧ luaS_bufstart fresh garbage s = .error e s') := by
  have hsame : Interns s s ms ms fresh [] := Interns.of_same (SameBodies.refl s) h
  unfold luaS_bufstart
  rw [run_ite]
  by_cases hbig : MAXSSIZE < garbage.length
  · rw [if_pos hbig]
    exact ⟨s, hsame, Or.inr ⟨_, StringError.noConfusion, rfl⟩⟩
  · rw [if_neg hbig]
    cases fresh with
    | none => exact ⟨s, hsame, Or.inr ⟨.errmem, StringError.noConfusion, rfl⟩⟩
    | some p =>
      refine ⟨_, made_spec h
        (hfresh p rfl) rfl rfl, Or.inl ⟨p, _, rfl, rfl, update_self p _ _, rfl⟩⟩

/-- **`luaS_buffinish`** returns the string of the bytes that were written: the buffer itself if there is
none yet. -/
theorem luaS_buffinish_spec (h : StringsOk s ms) (hp : s.strings p = some ts) (hpm : p ∉ ms)
    (halive : ts.isdead = false) (room : Bool) :
    ∃ s' ms', Ends (luaS_buffinish room p s) s' ms' ts.getstr ∧ Interns s s' ms ms' (some p) [] := by
  have hlen := h.lens p ts hp
  obtain ⟨r, hrun, hsome, hnone⟩ := h.find ts.getstr
  unfold luaS_buffinish
  simp only [run_bind, getstring_run hp, run_get, strfuel_run, hlen, List.take_length, hrun]
  cases r with
  | some el =>
    obtain ⟨hel, hb⟩ := hsome el rfl
    obtain ⟨s', hkeep, hint, hfound⟩ := keepalive_spec (x := some p) h hel hb
    refine ⟨s', ms, Or.inl ⟨el, ?_, hfound⟩, hint⟩
    simp only [run_bind, hkeep, run_pure]
  | none =>
    have hpo : p ∈ s.objects := (h.alloc p).mp (by rw [hp]; exact Option.some_ne_none ts)
    set ts₁ : TString := { ts with hash := luaS_hash ts.getstr } with hts₁
    have hhashed : Interns s (s.setString p ts₁) ms ms (some p) [] := by
      refine ⟨?_, fun _ hq => hq, fun _ hq => Or.inl hq, fun q hq => ?_, ?_⟩
      · exact h.setLoose hpm rfl
          (fun q => (or_iff_right_of_imp (fun he : q = p => he ▸ hpo)).symm)
          h.objects rfl rfl rfl (h.loose p ts hp hpm) hlen
      · have hqp : q ≠ p := fun he => hq (by rw [he])
        show Option.map _ (update s.strings p _ q) = _
        rw [update_of_ne hqp]
      · have hreturns : (s.setString p ts₁).returns = s.returns := by
          funext q
          by_cases he : q = p
          · subst he
            rw [returns_of (update_self q _ _), returns_of hp]
            rfl
          · exact returns_update rfl he
        unfold StringState.owed StringState.held
        rw [hreturns]
        exact List.Perm.refl _
    have hbytes : ∀ q ∈ ms, (s.setString p ts₁).bytes q ≠ some ts.getstr := by
      intro q hq
      have hqp : q ≠ p := fun he => hpm (he ▸ hq)
      have hsame : (s.setString p ts₁).bytes q = s.bytes q := by
        show Option.map _ (update s.strings p _ q) = _
        rw [update_of_ne hqp]
        rfl
      rw [hsame]
      exact hnone rfl q hq
    obtain ⟨s', hends, _, hint⟩ :=
      chain_spec hhashed.ok (update_self p _ _) hpm rfl hbytes halive room
    refine ⟨s', p :: ms, ?_, hhashed.trans hint⟩
    rw [show ts₁.getstr = ts.getstr from rfl] at hends
    simpa only [run_bind, setstring_run, hts₁, run_pure, hlen] using hends

theorem runfree_run (b : ExtBuffer) : runfree b s = .ok ⟨⟩ { s with freed := b.handed ++ s.freed } := by
  unfold runfree ExtBuffer.handed
  cases b.free_cb <;> rfl

/-- A callback runs. -/
theorem freed_spec (h : StringsOk s ms) (b : ExtBuffer) :
    Interns s { s with freed := b.handed ++ s.freed } ms ms x b.handed where
  ok := ⟨h.pow, h.nodup, h.nuse, h.chains, h.interned, h.unique, h.lens, h.loose, h.alloc, h.objects⟩
  keeps := fun _ hq => hq
  members := fun _ hq => Or.inl hq
  bodies := fun _ _ => rfl
  owed := by
    show ((b.handed ++ s.freed) ++ s.held).Perm (b.handed ++ (s.freed ++ s.held))
    rw [List.append_assoc]

/-- **`luaS_newexternallstr`** returns the string of the bytes and takes over the buffer, or gives the
buffer back. -/
theorem luaS_newexternallstr_spec (h : StringsOk s ms)
    (hfresh : ∀ p, fresh = some p → p ∉ s.objects) (room : Bool) (b : ExtBuffer) :
    ∃ s' ms', Ends (luaS_newexternallstr fresh room b s) s' ms' b.bytes ∧
      Interns s s' ms ms' fresh b.handed := by
  unfold luaS_newexternallstr
  rw [run_ite]
  by_cases hbig : MAXSSIZE < b.bytes.length
  · rw [if_pos hbig]
    refine ⟨_, ms, Or.inr ⟨.toobig "external string too big" MAXSSIZE, StringError.noConfusion, ?_⟩,
      freed_spec h b⟩
    simp only [run_bind, runfree_run]
    rfl
  · rw [if_neg hbig]
    obtain ⟨r, hrun, hsome, hnone⟩ := h.find b.bytes
    simp only [run_bind, run_get, strfuel_run, hrun]
    cases r with
    | some el =>
      obtain ⟨hel, hb⟩ := hsome el rfl
      obtain ⟨s₁, hkeep, hint, hfound⟩ := keepalive_spec (x := fresh) h hel hb
      have hfree := freed_spec (x := fresh) hint.ok b
      refine ⟨{ s₁ with freed := b.handed ++ s₁.freed }, ms,
        Or.inl ⟨el, ?_, ⟨hel, hfound.bytes, hfound.alive⟩⟩, hfree.ok, hfree.keeps, hfree.members, hint.bodies, hfree.owed.trans ?_⟩
      · simp only [run_bind, hkeep, runfree_run, run_pure]
      · exact hint.owed.append_left _
    | none =>
      cases fresh with
      | none =>
        refine ⟨_, ms, Or.inr ⟨.errmem, StringError.noConfusion, ?_⟩, freed_spec h b⟩
        simp only [run_bind, runfree_run]
        rfl
      | some p =>
        obtain ⟨s', hends, _, hint⟩ :=
          @make_spec _ _ _ ⟨none, luaS_hash b.bytes, b.bytes.length, .ext b, false, false⟩
            h (hfresh p rfl) rfl rfl rfl (hnone rfl) rfl room
        refine ⟨s', p :: ms, hends, ?_⟩
        have hreturns : (TString.returns ⟨none, luaS_hash b.bytes, b.bytes.length, .ext b, false,
            false⟩).toList = b.handed := by
          unfold TString.returns ExtBuffer.handed
          cases hcb : b.free_cb <;> simp only [hcb] <;> rfl
        rw [← hreturns]
        exact hint

end Intern

end Luwu
