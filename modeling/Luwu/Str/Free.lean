import Mathlib.Data.List.Perm.Basic
import Luwu.Str.Intern

/-!
# Freeing strings

`luaS_free` takes a string out of its bucket, wherever it stands there, and runs the callback of its buffer
(`luaS_free_spec`); a string buffer that was not chained leaves the table alone.  When all strings are
freed, every callback has run (`freeall_spec`).
-/

namespace Luwu

open Function Luwu.Run Luwu.Chains Luwu.HashChains

section Free

variable {s s' s₁ : StringState} {ms xs pre post : List ℕ} {p q : ℕ} {ts ts' : TString}
  {head r : Option ℕ} {place : StrPlace} {room : Bool}

/-! ### `unlinkstr` -/

/-- Where the pointer to the string after `pre` is stored. -/
def StrPlace.after (place : StrPlace) (pre : List ℕ) : StrPlace :=
  match pre.getLast? with
  | none => place
  | some q => .next q

theorem after_nil (place : StrPlace) : place.after [] = place := rfl

theorem after_of_last (place : StrPlace) (h : pre.getLast? = some q) : place.after pre = .next q := by
  unfold StrPlace.after
  rw [h]

theorem after_cons (place : StrPlace) (q : ℕ) (pre : List ℕ) :
    place.after (q :: pre) = (StrPlace.next q).after pre := by
  cases pre with
  | nil => rfl
  | cons c pre =>
    unfold StrPlace.after
    rw [List.getLast?_cons_cons]
    cases hl : (c :: pre).getLast? with
    | none => exact absurd (List.getLast?_eq_none_iff.mp hl) (List.cons_ne_nil c pre)
    | some y => rfl

/-- The loop stops at the string, in the place of its predecessor. -/
theorem unlinkloop_found {fuel : ℕ} (hc : Chain s.next head (pre ++ p :: post))
    (hx : ∀ q ∈ pre ++ [p], ∃ ts, s.strings q = some ts) (hp : p ∉ pre) (hfuel : pre.length < fuel) :
    unlinkloop p fuel place head s =
      (do setplace (s.next p) (place.after pre); return true : StringM Bool) s := by
  induction pre generalizing head fuel place with
  | nil =>
    obtain ⟨fuel, rfl⟩ : ∃ n, fuel = n + 1 := ⟨fuel - 1, by simp at hfuel; omega⟩
    obtain ⟨ts, hts⟩ := hx p List.mem_cons_self
    rw [hc.1]
    unfold unlinkloop
    simp only [run_bind, getstring_run hts, if_true, next_of hts]
    rfl
  | cons c pre ih =>
    obtain ⟨fuel, rfl⟩ : ∃ n, fuel = n + 1 := ⟨fuel - 1, by simp at hfuel; omega⟩
    obtain ⟨hcp, hppre⟩ := not_or.mp (fun h => hp (List.mem_cons.mpr h))
    obtain ⟨tc, htc⟩ := hx c List.mem_cons_self
    have htail := hc.2
    rw [next_of htc] at htail
    rw [hc.1, after_cons]
    unfold unlinkloop
    simp only [run_bind, getstring_run htc, if_neg (Ne.symm hcp)]
    rw [ih htail (fun q hq => hx q (List.mem_cons_of_mem c hq)) hppre (by simpa using hfuel)]
    simp only [run_bind]

theorem unlinkloop_absent {fuel : ℕ} (hc : Chain s.next head xs)
    (hx : ∀ q ∈ xs, ∃ ts, s.strings q = some ts) (hp : p ∉ xs) (hfuel : xs.length ≤ fuel) :
    unlinkloop p fuel place head s = .ok false s := by
  induction xs generalizing head fuel place with
  | nil =>
    have hnone : head = none := hc
    rw [hnone]
    cases fuel <;> rfl
  | cons c xs ih =>
    obtain ⟨fuel, rfl⟩ : ∃ n, fuel = n + 1 := ⟨fuel - 1, by simp at hfuel; omega⟩
    obtain ⟨hcp, hpxs⟩ := not_or.mp (fun h => hp (List.mem_cons.mpr h))
    obtain ⟨tc, htc⟩ := hx c List.mem_cons_self
    have htail := hc.2
    rw [next_of htc] at htail
    rw [hc.1]
    unfold unlinkloop
    simp only [run_bind, getstring_run htc, if_neg (Ne.symm hcp)]
    exact ih htail (fun q hq => hx q (List.mem_cons_of_mem c hq)) hpxs (by simpa using hfuel)

/-- The pointer in one place is written. -/
structure PlaceSet (s s' : StringState) (place : StrPlace) (r : Option ℕ) : Prop where
  relinked : Relinked s s'
  size : s'.size = s.size
  nuse : s'.nuse = s.nuse
  links : ∀ y, s'.next y = if place = .next y then r else s.next y
  heads : ∀ i, s'.hash i = if place = .bucket i then r else s.hash i

theorem setplace_spec (hplace : ∀ q, place = .next q → ∃ tq, s.strings q = some tq) :
    ∃ s', setplace r place s = .ok ⟨⟩ s' ∧ PlaceSet s s' place r := by
  cases place with
  | bucket j =>
    refine ⟨_, rfl, ⟨rfl, rfl, fun _ => rfl⟩, rfl, rfl, fun y => ?_, fun i => ?_⟩
    · exact (if_neg StrPlace.noConfusion).symm
    · have hij : i = j ↔ StrPlace.bucket j = .bucket i := by rw [StrPlace.bucket.injEq, eq_comm]
      exact (update_apply _ _ _ _).trans (if_congr hij rfl rfl)
  | next q =>
    obtain ⟨tq, htq⟩ := hplace q rfl
    refine ⟨s.setString q { tq with next := r }, ?_, relinked_setString htq r, rfl, rfl, fun y => ?_,
      fun i => ?_⟩
    · unfold setplace
      simp only [run_bind, getstring_run htq, setstring_run]
    · have hqy : y = q ↔ StrPlace.next q = .next y := by rw [StrPlace.next.injEq, eq_comm]
      exact (next_setString y).trans (if_congr hqy rfl rfl)
    · exact (if_neg StrPlace.noConfusion).symm

/-- What `unlinkstr` leaves, before the count goes down. -/
structure Unlinked (s s' : StringState) (ms' : List ℕ) : Prop where
  relinked : Relinked s s'
  size : s'.size = s.size
  nuse : s'.nuse = s.nuse
  loose : ∀ q, q ∉ ms' → s.next q = none → s'.next q = none
  chains : Bucketed s'.next s'.hash (s.bucketIn s.size) (· < s.size) ms'

/-- A member is taken out of its bucket. -/
theorem unlinkstr_member (h : StringsOk s ms) (hp : p ∈ ms) :
    ∃ s', unlinkstr p s = .ok true s' ∧ Unlinked s s' (ms.erase p) := by
  obtain ⟨ts, hts, _⟩ := h.member hp
  have hbucket : s.bucketIn s.size p = lmod ts.hash.toNat s.size := bucketIn_of hts
  have hlt := h.bucket_lt hp
  obtain ⟨xs, hc, hnd, hxs⟩ := h.chains _ hlt
  obtain ⟨pre, post, rfl⟩ := List.append_of_mem ((hxs p).mpr ⟨hp, rfl⟩)
  have hsub : ∀ q ∈ pre ++ p :: post, q ∈ ms := fun q hq => ((hxs q).mp hq).1
  have hppre : p ∉ pre := by
    intro hm
    exact (List.disjoint_of_nodup_append hnd) hm List.mem_cons_self
  have hlen : pre.length < s.objects.length := by
    have hle := ((List.Nodup.subperm hnd hsub).length_le).trans h.length_le
    rw [List.length_append, List.length_cons] at hle
    omega
  have hstring : ∀ q ∈ pre ++ p :: post, ∃ ts, s.strings q = some ts := fun q hq =>
    (h.member (hsub q hq)).imp fun _ hq => hq.1
  have hloop := @unlinkloop_found _ _ _ _ _ (.bucket (s.bucketIn s.size p)) _ hc
    (fun q hq => hstring q (by
      rw [List.mem_append, List.mem_singleton] at hq
      rw [List.mem_append, List.mem_cons]
      exact hq.imp_right Or.inl)) hppre hlen
  set place := (StrPlace.bucket (s.bucketIn s.size p)).after pre with hplace
  have hlast : ∀ q, place = .next q ↔ pre.getLast? = some q := by
    intro q
    rw [hplace]
    cases hl : pre.getLast? with
    | none =>
      rw [List.getLast?_eq_none_iff.mp hl, after_nil]
      exact iff_of_false StrPlace.noConfusion (Option.some_ne_none q).symm
    | some y => rw [after_of_last _ hl, StrPlace.next.injEq, Option.some.injEq]
  have hfirst : ∀ i, place = .bucket i ↔ i = s.bucketIn s.size p ∧ pre = [] := by
    intro i
    rw [hplace]
    cases hl : pre.getLast? with
    | none =>
      rw [List.getLast?_eq_none_iff.mp hl, after_nil, StrPlace.bucket.injEq, and_iff_left rfl]
      exact eq_comm
    | some y =>
      rw [after_of_last _ hl]
      refine iff_of_false StrPlace.noConfusion (fun he => ?_)
      rw [he.2] at hl
      cases hl
  obtain ⟨s', hset, hput⟩ := setplace_spec (s := s) (r := s.next p)
    (fun q hq => hstring q (List.mem_append_left _ (List.mem_of_getLast? ((hlast q).mp hq))))
  refine ⟨s', ?_, hput.relinked, hput.size, hput.nuse, fun q hq hnone => ?_, ?_⟩
  · unfold unlinkstr
    simp only [run_bind, getstring_run hts, run_get, strfuel_run, ← hbucket]
    rw [hloop]
    simp only [run_bind, hset, run_pure]
  · have hqp : place ≠ .next q := by
      intro he
      have hqm : q ∈ pre := List.mem_of_getLast? ((hlast q).mp he)
      refine hq ((List.Nodup.mem_erase_iff h.nodup).mpr ⟨fun he => hppre (he ▸ hqm), ?_⟩)
      exact hsub q (List.mem_append_left _ hqm)
    rw [hput.links, if_neg hqp, hnone]
  · apply h.chains.remove h.nodup hp hlt hc
    · intro y _ _ hy
      rw [hput.links, if_neg (fun he => hy ((hlast y).mp he))]
    · intro y hy
      rw [hput.links, if_pos ((hlast y).mpr hy)]
    · intro i _
      rw [hput.heads]
      exact if_congr (hfirst i) rfl rfl

/-- A string buffer is not found. -/
theorem unlinkstr_loose (h : StringsOk s ms) (hts : s.strings p = some ts) (hp : p ∉ ms) :
    unlinkstr p s = .ok false s := by
  obtain ⟨k, hk⟩ := h.pow
  have hlt : lmod ts.hash.toNat s.size < s.size := by
    rw [hk]
    exact lmod_lt _ _
  obtain ⟨xs, hc, hnd, hxs⟩ := h.chains _ hlt
  have hsub : ∀ q ∈ xs, q ∈ ms := fun q hq => ((hxs q).mp hq).1
  unfold unlinkstr
  simp only [run_bind, getstring_run hts, run_get, strfuel_run]
  exact unlinkloop_absent hc (fun q hq => (h.member (hsub q hq)).imp fun _ hq => hq.1)
    (fun hm => hp (hsub p hm)) (((List.Nodup.subperm hnd hsub).length_le).trans h.length_le)

/-- The string is out of the table, and counted out. -/
theorem unlinkcount_spec (h : StringsOk s ms) (hts : s.strings p = some ts) :
    ∃ s', (do countdown (← unlinkstr p) : StringM Unit) s = .ok ⟨⟩ s' ∧ Relinked s s' ∧ s'.size = s.size ∧
      s'.nuse = BitVec.ofNat 32 (ms.erase p).length ∧
      (∀ q, q ∉ ms.erase p → s.next q = none → s'.next q = none) ∧
      Bucketed s'.next s'.hash (s.bucketIn s.size) (· < s.size) (ms.erase p) := by
  by_cases hp : p ∈ ms
  · obtain ⟨s₁, hrun, hu⟩ := unlinkstr_member h hp
    refine ⟨{ s₁ with nuse := s₁.nuse - 1 }, ?_, ⟨hu.relinked.objects, hu.relinked.freed, hu.relinked.strings⟩,
      hu.size, ?_, hu.loose, hu.chains⟩
    · simp only [run_bind, hrun]
      rfl
    · show s₁.nuse - 1 = _
      have hlen : ms.length = (ms.erase p).length + 1 := by
        rw [List.length_erase_of_mem hp]
        have hpos := List.length_pos_of_mem hp
        omega
      rw [hu.nuse, h.nuse, hlen, BitVec.ofNat_add]
      exact BitVec.add_sub_cancel _ _
  · rw [List.erase_of_not_mem hp]
    refine ⟨s, ?_, Relinked.refl s, rfl, h.nuse, fun _ _ hn => hn, h.chains⟩
    simp only [run_bind, unlinkstr_loose h hts hp]
    rfl

/-! ### `luaS_free` -/

/-- The string is gone; `bs` are the callbacks that ran for it. -/
def StringState.without (s : StringState) (p : ℕ) (bs : List ExtBuffer) : StringState :=
  { s with
    strings := update s.strings p none
    objects := s.objects.erase p
    freed := bs ++ s.freed }

/-- The end of `luaS_free`. -/
theorem dispose_run (hts : s.strings p = some ts) :
    (do
      let ts ← getstring p
      match ts.u with
      | .ext b => do
        runfree b
        freestring p
      | .data _ => freestring p : StringM Unit) s = .ok ⟨⟩ (s.without p ts.returns.toList) := by
  simp only [run_bind, getstring_run hts]
  unfold TString.returns
  cases ts.u with
  | data bytes => rfl
  | ext b =>
    simp only [run_bind, runfree_run]
    unfold ExtBuffer.handed
    cases b.free_cb <;> rfl

theorem without_strings {bs : List ExtBuffer} (hq : q ≠ p) :
    (s.without p bs).strings q = s.strings q := update_of_ne hq _ _

/-- What is owed stays owed: a buffer moves from a string to the callbacks that ran. -/
theorem owed_without (hts : s.strings p = some ts) (hp : p ∈ s.objects) (hnd : s.objects.Nodup) :
    (s.without p ts.returns.toList).owed.Perm s.owed := by
  have hrest : (s.objects.erase p).filterMap (s.without p ts.returns.toList).returns =
      (s.objects.erase p).filterMap s.returns := by
    apply List.filterMap_congr
    intro q hq
    have hqp : q ≠ p := ((List.Nodup.mem_erase_iff hnd).mp hq).1
    unfold StringState.returns
    rw [without_strings hqp]
  have hheld : s.held.Perm (ts.returns.toList ++ (s.objects.erase p).filterMap s.returns) := by
    have hperm := (List.perm_cons_erase hp).filterMap s.returns
    rw [List.filterMap_cons, returns_of hts] at hperm
    cases hr : ts.returns with
    | none =>
      rw [hr] at hperm
      exact hperm
    | some b =>
      rw [hr] at hperm
      exact hperm
  show ((ts.returns.toList ++ s.freed) ++ (s.objects.erase p).filterMap
    (s.without p ts.returns.toList).returns).Perm (s.freed ++ s.held)
  rw [hrest]
  calc (ts.returns.toList ++ s.freed) ++ (s.objects.erase p).filterMap s.returns
      = ts.returns.toList ++ (s.freed ++ (s.objects.erase p).filterMap s.returns) :=
        List.append_assoc _ _ _
    _ |>.Perm (s.freed ++ (ts.returns.toList ++ (s.objects.erase p).filterMap s.returns)) :=
        List.perm_append_comm_assoc _ _ _
    _ |>.Perm (s.freed ++ s.held) := hheld.symm.append_left _

/-- A string that is out of the table goes away. -/
theorem StringsOk.without (h : StringsOk s ms) (hre : Relinked s s₁) (hsize : s₁.size = s.size)
    (hnuse : s₁.nuse = BitVec.ofNat 32 (ms.erase p).length)
    (hloose : ∀ q, q ∉ ms.erase p → s.next q = none → s₁.next q = none)
    (hc : Bucketed s₁.next s₁.hash (s.bucketIn s.size) (· < s.size) (ms.erase p))
    (bs : List ExtBuffer) : StringsOk (s₁.without p bs) (ms.erase p) := by
  have hmem : ∀ q, q ∈ ms.erase p ↔ q ≠ p ∧ q ∈ ms := fun q => List.Nodup.mem_erase_iff h.nodup
  have hother : ∀ q, q ≠ p → (s₁.without p bs).strings q = s₁.strings q := fun q hq => without_strings hq
  have hgone : (s₁.without p bs).strings p = none := update_self p _ _
  have hstring : ∀ q tq, (s₁.without p bs).strings q = some tq →
      q ≠ p ∧ ∃ tq', s.strings q = some tq' ∧ tq'.body = tq.body ∧ s₁.next q = tq.next := by
    intro q tq hq
    have hqp : q ≠ p := by
      intro he
      rw [he, hgone] at hq
      cases hq
    rw [hother q hqp] at hq
    obtain ⟨tq', hq', he⟩ := hre.same.symm.string hq
    exact ⟨hqp, tq', hq', he, next_of hq⟩
  refine ⟨?_, List.Nodup.erase p h.nodup, hnuse, ?_, ?_, ?_, ?_, ?_, ?_, ?_⟩
  · show ∃ k, s₁.size = 2 ^ k
    rw [hsize]
    exact h.pow
  · show Bucketed _ s₁.hash (StringState.bucketIn _ s₁.size) (· < s₁.size) _
    rw [hsize]
    refine hc.congr (fun q hq _ => ?_) (fun _ _ => rfl) (fun q hq => ?_) (fun _ => Iff.rfl)
    · unfold StringState.next
      rw [hother q ((hmem q).mp hq).1]
    · rw [← hre.same.bucketIn]
      unfold StringState.bucketIn
      rw [hother q ((hmem q).mp hq).1]
  · intro q hq
    obtain ⟨hqp, hqm⟩ := (hmem q).mp hq
    obtain ⟨tq, htq, hh, _⟩ := h.member hqm
    obtain ⟨tq', htq', he⟩ := hre.same.string htq
    obtain ⟨h1, _, h3⟩ := body_fields he
    exact ⟨tq', (hother q hqp).trans htq', by rw [h1, hh, getstr_congr h3]⟩
  · intro q r hq hr hb
    obtain ⟨hqp, hqm⟩ := (hmem q).mp hq
    obtain ⟨hrp, hrm⟩ := (hmem r).mp hr
    have hbytes : ∀ y, y ≠ p → (s₁.without p bs).bytes y = s.bytes y := by
      intro y hy
      rw [← hre.same.bytes]
      unfold StringState.bytes
      rw [hother y hy]
    rw [hbytes q hqp, hbytes r hrp] at hb
    exact h.unique q r hqm hrm hb
  · intro q tq hq
    obtain ⟨_, tq', hq', he, _⟩ := hstring q tq hq
    obtain ⟨_, h2, h3⟩ := body_fields he
    rw [← h2, ← getstr_congr h3]
    exact h.lens q tq' hq'
  · intro q tq hq hqm
    obtain ⟨hqp, tq', hq', _, hn⟩ := hstring q tq hq
    rw [← hn]
    apply hloose q hqm
    rw [next_of hq']
    exact h.loose q tq' hq' (fun hm => hqm ((hmem q).mpr ⟨hqp, hm⟩))
  · intro q
    show _ ↔ q ∈ s₁.objects.erase p
    rw [hre.objects, List.Nodup.mem_erase_iff h.objects]
    by_cases hqp : q = p
    · rw [hqp, hgone]
      exact iff_of_false (fun hn => hn rfl) (fun hq => hq.1 rfl)
    · rw [hother q hqp, and_iff_right hqp, ← h.alloc]
      have hs := hre.same.strings q
      cases hq : s.strings q with
      | none =>
        rw [hq] at hs
        rw [Option.map_eq_none_iff.mp hs]
      | some tq =>
        obtain ⟨tq', htq', _⟩ := hre.same.string hq
        rw [htq']
        exact iff_of_true (Option.some_ne_none _) (Option.some_ne_none _)
  · show (s₁.objects.erase p).Nodup
    rw [hre.objects]
    exact List.Nodup.erase p h.objects

/-- **`luaS_free`** takes the string out, whether it is chained or a buffer, and gives its buffer back. -/
theorem luaS_free_spec (h : StringsOk s ms) (hp : p ∈ s.objects) :
    ∃ s', luaS_free p s = .ok ⟨⟩ s' ∧ StringsOk s' (ms.erase p) ∧ s'.objects = s.objects.erase p ∧
      (∀ q, q ≠ p → (s'.strings q).map TString.body = (s.strings q).map TString.body) ∧
      s'.owed.Perm s.owed := by
  obtain ⟨ts, hts⟩ := Option.ne_none_iff_exists'.mp ((h.alloc p).mpr hp)
  obtain ⟨s₁, hrun, hre, hsize, hnuse, hloose, hc⟩ := unlinkcount_spec h hts
  obtain ⟨ts₁, hts₁, _⟩ := hre.same.string hts
  refine ⟨s₁.without p ts₁.returns.toList, ?_, h.without hre hsize hnuse hloose hc _, ?_, fun q hq => ?_, ?_⟩
  · have hfree : luaS_free p = (do
        (do countdown (← unlinkstr p) : StringM Unit)
        let ts ← getstring p
        match ts.u with
        | .ext b => do
          runfree b
          freestring p
        | .data _ => freestring p) := by
      unfold luaS_free
      exact (bind_assoc (m := StringM) (unlinkstr p) (fun r => countdown r) _).symm
    rw [hfree, run_bind, hrun]
    exact dispose_run hts₁
  · show s₁.objects.erase p = _
    rw [hre.objects]
  · rw [without_strings hq]
    exact hre.same.strings q
  · have hp₁ : p ∈ s₁.objects := by
      rw [hre.objects]
      exact hp
    have hnd : s₁.objects.Nodup := by
      rw [hre.objects]
      exact h.objects
    rw [← hre.same.owed]
    exact owed_without hts₁ hp₁ hnd

theorem freeloop_spec {ps : List ℕ} (h : StringsOk s ms) (hps : s.objects = ps) :
    ∃ s', ps.forM luaS_free s = .ok ⟨⟩ s' ∧ StringsOk s' [] ∧ s'.objects = [] ∧ s'.owed.Perm s.owed := by
  induction ps generalizing s ms with
  | nil =>
    have hnil : ms = [] := by
      have hle := h.length_le
      rw [hps] at hle
      exact List.eq_nil_of_length_eq_zero (Nat.le_zero.mp hle)
    rw [hnil] at h
    exact ⟨s, rfl, h, hps, List.Perm.refl _⟩
  | cons p ps ih =>
    have hp : p ∈ s.objects := by
      rw [hps]
      exact List.mem_cons_self
    obtain ⟨s₁, hrun₁, hok₁, hobj₁, _, howed₁⟩ := luaS_free_spec h hp
    rw [hps, List.erase_cons_head] at hobj₁
    obtain ⟨s', hrun, hok, hobj, howed⟩ := ih hok₁ hobj₁
    refine ⟨s', ?_, hok, hobj, howed.trans howed₁⟩
    show (luaS_free p >>= fun _ => ps.forM luaS_free) s = _
    rw [run_bind, hrun₁]
    exact hrun

/-- **`luaC_freeall`** leaves an empty table, and everything that was owed has been given back. -/
theorem freeall_spec (h : StringsOk s ms) :
    ∃ s', freeall s = .ok ⟨⟩ s' ∧ s'.freed.Perm s.owed ∧ s'.nuse = 0 ∧ ∀ i < s'.size, s'.hash i = none := by
  obtain ⟨s', hrun, hok, hobj, howed⟩ := freeloop_spec h rfl
  refine ⟨s', hrun, ?_, hok.nuse, fun i hi => ?_⟩
  · have hheld : s'.held = [] := by
      unfold StringState.held
      rw [hobj]
      rfl
    unfold StringState.owed at howed
    rw [hheld, List.append_nil] at howed
    exact howed
  · obtain ⟨xs, hc, _, hxs⟩ := hok.chains i hi
    have hnil : xs = [] := List.eq_nil_iff_forall_not_mem.mpr fun q hq =>
      List.not_mem_nil ((hxs q).mp hq).1
    rw [hnil] at hc
    exact hc

end Free

end Luwu
