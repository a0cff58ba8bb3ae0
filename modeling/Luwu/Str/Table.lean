import Mathlib.Data.List.Sublists
import Luwu.Lib.Chain
import Luwu.Table.Invariant
import Luwu.Lib.Run
import Luwu.Str.Core

/-!
# The string table

`StringsOk` is the invariant: the chained strings are the members `ms`, each in the bucket of its hash and
once, no two with the same bytes, and `nuse` counts them.  Resizing moves the members one by one from the old buckets to the new ones.
-/

namespace Luwu

open Function Luwu.Run Luwu.Chains Luwu.HashChains

namespace StringState

def next (s : StringState) (p : ℕ) : Option ℕ := (s.strings p).bind TString.next

/-- The bucket of a string in a table of some size. -/
def bucketIn (s : StringState) (size p : ℕ) : ℕ :=
  match s.strings p with
  | some ts => lmod ts.hash.toNat size
  | none => 0

/-- The bytes of a string. -/
def bytes (s : StringState) (p : ℕ) : Option Bytes := (s.strings p).map TString.getstr

end StringState

structure StringsOk (s : StringState) (ms : List ℕ) : Prop where
  pow : ∃ k, s.size = 2 ^ k
  nodup : ms.Nodup
  nuse : s.nuse = BitVec.ofNat 32 ms.length
  chains : Bucketed s.next s.hash (s.bucketIn s.size) (· < s.size) ms
  interned : ∀ p ∈ ms, ∃ ts, s.strings p = some ts ∧ ts.hash = luaS_hash ts.getstr
  unique : ∀ p q, p ∈ ms → q ∈ ms → s.bytes p = s.bytes q → p = q
  lens : ∀ p ts, s.strings p = some ts → ts.len = ts.getstr.length
  loose : ∀ p ts, s.strings p = some ts → p ∉ ms → ts.next = none
  alloc : ∀ p, s.strings p ≠ none ↔ p ∈ s.objects
  objects : s.objects.Nodup

/-- A string without its link. -/
def TString.unlinked (ts : TString) : TString := { ts with next := none }

/-- A string without its link and its colour. -/
def TString.body (ts : TString) : TString :=
  { ts with next := none, otherwhite := false, fixed := false }

/-- Two states with the same strings, apart from links and colours. -/
structure SameBodies (s s' : StringState) : Prop where
  objects : s'.objects = s.objects
  freed : s'.freed = s.freed
  strings : ∀ p, (s'.strings p).map TString.body = (s.strings p).map TString.body

/-- Two states with the same strings, apart from links. -/
structure Relinked (s s' : StringState) : Prop where
  objects : s'.objects = s.objects
  freed : s'.freed = s.freed
  strings : ∀ p, (s'.strings p).map TString.unlinked = (s.strings p).map TString.unlinked

section Table

variable {s s' : StringState} {ms xs : List ℕ} {p q size : ℕ} {ts ts' : TString} {str : Bytes}
  {head : Option ℕ} {newhash : ℕ → Option ℕ} {D : List ℕ}

/-! ### Buckets -/

theorem lmod_lt (h k : ℕ) : lmod h (2 ^ k) < 2 ^ k := by
  rw [lmod_two_pow]
  exact Nat.mod_lt _ (Nat.two_pow_pos k)

theorem bucketIn_of (h : s.strings p = some ts) : s.bucketIn size p = lmod ts.hash.toNat size := by
  unfold StringState.bucketIn
  rw [h]

theorem next_of (h : s.strings p = some ts) : s.next p = ts.next := by
  unfold StringState.next
  rw [h]
  rfl

theorem bytes_of (h : s.strings p = some ts) : s.bytes p = some ts.getstr := by
  unfold StringState.bytes
  rw [h]
  rfl

theorem getstring_run (h : s.strings p = some ts) : getstring p s = .ok ts s := by
  unfold getstring
  simp only [run_bind, run_get, h, run_pure]

theorem setstring_run : setstring p ts s = .ok ⟨⟩ (s.setString p ts) := rfl

theorem strfuel_run : strfuel s = .ok s.objects.length s := rfl

/-! ### Links -/

theorem body_fields (h : ts'.body = ts.body) :
    ts'.hash = ts.hash ∧ ts'.len = ts.len ∧ ts'.u = ts.u := by
  obtain ⟨_, h1, h2, h3, _⟩ := TString.mk.inj h
  exact ⟨h1, h2, h3⟩

theorem getstr_congr (h : ts'.u = ts.u) : ts'.getstr = ts.getstr := by
  unfold TString.getstr
  rw [h]

theorem SameBodies.refl (s : StringState) : SameBodies s s := ⟨rfl, rfl, fun _ => rfl⟩

theorem SameBodies.symm (h : SameBodies s s') : SameBodies s' s :=
  ⟨h.objects.symm, h.freed.symm, fun p => (h.strings p).symm⟩

theorem SameBodies.string (h : SameBodies s s') (hp : s.strings p = some ts) :
    ∃ ts', s'.strings p = some ts' ∧ ts'.body = ts.body := by
  have hs := h.strings p
  rw [hp, Option.map_some] at hs
  exact Option.map_eq_some_iff.mp hs

theorem SameBodies.bucketIn (h : SameBodies s s') : s'.bucketIn size p = s.bucketIn size p := by
  cases hp : s.strings p with
  | none =>
    have hs := h.strings p
    rw [hp, Option.map_none] at hs
    have hp' := Option.map_eq_none_iff.mp hs
    unfold StringState.bucketIn
    rw [hp, hp']
  | some ts =>
    obtain ⟨ts', hp', he⟩ := h.string hp
    rw [bucketIn_of hp, bucketIn_of hp', (body_fields he).1]

theorem SameBodies.bytes (h : SameBodies s s') (p : ℕ) : s'.bytes p = s.bytes p := by
  cases hp : s.strings p with
  | none =>
    have hs := h.strings p
    rw [hp, Option.map_none] at hs
    have hp' := Option.map_eq_none_iff.mp hs
    unfold StringState.bytes
    rw [hp, hp']
  | some ts =>
    obtain ⟨ts', hp', he⟩ := h.string hp
    rw [bytes_of hp, bytes_of hp', getstr_congr (body_fields he).2.2]

theorem Relinked.refl (s : StringState) : Relinked s s := ⟨rfl, rfl, fun _ => rfl⟩

theorem Relinked.trans {s'' : StringState} (h : Relinked s s') (h' : Relinked s' s'') :
    Relinked s s'' :=
  ⟨h'.objects.trans h.objects, h'.freed.trans h.freed, fun p => (h'.strings p).trans (h.strings p)⟩

theorem Relinked.same (h : Relinked s s') : SameBodies s s' where
  objects := h.objects
  freed := h.freed
  strings := by
    intro p
    have hbody : ∀ r : Option TString, r.map TString.body = (r.map TString.unlinked).map TString.body := by
      intro r
      rw [Option.map_map]
      rfl
    rw [hbody, h.strings p, ← hbody]

/-- The link of one string is written. -/
theorem relinked_setString (h : s.strings p = some ts) (r : Option ℕ) :
    Relinked s (s.setString p { ts with next := r }) := by
  refine ⟨rfl, rfl, fun q => ?_⟩
  show Option.map _ (update s.strings p _ q) = _
  by_cases he : q = p
  · subst he
    rw [update_self, h]
    rfl
  · rw [update_of_ne he]

theorem next_setString (q : ℕ) :
    (s.setString p ts).next q = if q = p then ts.next else s.next q := by
  show Option.bind (update s.strings p _ q) _ = _
  by_cases he : q = p
  · subst he
    rw [update_self, if_pos rfl]
    rfl
  · rw [update_of_ne he, if_neg he]
    rfl

/-! ### `luaS_resize` -/

/-- The old chain `xs` moves into the new buckets. -/
theorem rehashchain_spec {fuel : ℕ} (hc : Chain s.next head xs) (hnd : xs.Nodup)
    (hx : ∀ p ∈ xs, ∃ ts, s.strings p = some ts ∧ p ∉ D)
    (hb : Bucketed s.next newhash (s.bucketIn size) (· < size) D) (hfuel : xs.length ≤ fuel) :
    ∃ s' newhash' D', rehashchain size fuel head newhash s = .ok newhash' s' ∧ Relinked s s' ∧
      s'.hash = s.hash ∧ s'.nuse = s.nuse ∧ (∀ p, p ∉ xs → s'.strings p = s.strings p) ∧
      Bucketed s'.next newhash' (s'.bucketIn size) (· < size) D' ∧
      ∀ p, p ∈ D' ↔ p ∈ xs ∨ p ∈ D := by
  induction xs generalizing s head newhash D fuel with
  | nil =>
    have hnone : head = none := hc
    refine ⟨s, newhash, D, ?_, Relinked.refl s, rfl, rfl, fun _ _ => rfl, hb, fun p => ?_⟩
    · rw [hnone]
      cases fuel <;> rfl
    · rw [or_iff_right List.not_mem_nil]
  | cons p xs ih =>
    obtain ⟨fuel, rfl⟩ : ∃ n, fuel = n + 1 := ⟨fuel - 1, by simp at hfuel; omega⟩
    obtain ⟨hhead, htail⟩ := hc
    obtain ⟨hpxs, hnd'⟩ := List.nodup_cons.mp hnd
    obtain ⟨ts, hp, hpD⟩ := hx p List.mem_cons_self
    rw [next_of hp] at htail
    set b := lmod ts.hash.toNat size with hbdef
    set s₁ := s.setString p { ts with next := newhash b } with hs₁
    have hre : Relinked s s₁ := relinked_setString hp _
    have hother : ∀ q, q ≠ p → s₁.strings q = s.strings q := fun q hq => update_of_ne hq _ _
    have hne : ∀ q ∈ xs, q ≠ p := fun q hq he => hpxs (he ▸ hq)
    have hnext : ∀ q, q ≠ p → s₁.next q = s.next q := fun q hq => by
      rw [next_setString, if_neg hq]
    have hb₁ : Bucketed s₁.next (update newhash b (some p)) (s₁.bucketIn size) (· < size) (p :: D) := by
      have hbucket : s.bucketIn size p = b := bucketIn_of hp
      have hins := @HashChains.Bucketed.insert _ _ _ _ _ (update newhash b (some p)) _ _ _ _ _ hb hpD
        (by rw [next_setString, if_pos rfl, hbucket])
        (fun q hq => hnext q (fun he => hpD (he ▸ hq)))
        (fun c _ => by rw [hbucket, update_apply])
      exact hins.congr (fun _ _ _ => rfl) (fun _ _ => rfl) (fun _ _ => hre.same.bucketIn) (fun _ => Iff.rfl)
    obtain ⟨s', newhash', D', hrun, hre', hh', hn', hrest, hb', hD'⟩ := ih (s := s₁) (D := p :: D)
      (htail.congr (fun q hq => hnext q (hne q hq))) hnd'
      (fun q hq => by
        obtain ⟨tq, hq', hqD⟩ := hx q (List.mem_cons_of_mem p hq)
        refine ⟨tq, (hother q (hne q hq)).trans hq', ?_⟩
        rw [List.mem_cons, not_or]
        exact ⟨hne q hq, hqD⟩)
      hb₁ (by simpa using hfuel)
    refine ⟨s', newhash', D', ?_, hre.trans hre', hh', hn', fun q hq => ?_, hb', fun q => ?_⟩
    · rw [hhead]
      unfold rehashchain
      simp only [run_bind, getstring_run hp, setstring_run]
      exact hrun
    · rw [List.mem_cons, not_or] at hq
      rw [hrest q hq.2, hother q hq.1]
    · rw [hD', List.mem_cons, List.mem_cons]
      tauto

/-- The old buckets move one after the other. -/
theorem rehashtable_spec {is : List ℕ} {old : ℕ → ℕ} (hnd : is.Nodup)
    (hobj : ms.length ≤ s.objects.length)
    (hms : ∀ p ∈ ms, ∃ ts, s.strings p = some ts)
    (hold : Bucketed s.next s.hash old (· ∈ is) ms)
    (hD : ∀ p, p ∈ D ↔ p ∈ ms ∧ old p ∉ is)
    (hb : Bucketed s.next newhash (s.bucketIn size) (· < size) D) :
    ∃ s' newhash', rehashtable size is newhash s = .ok newhash' s' ∧ Relinked s s' ∧
      s'.nuse = s.nuse ∧ (∀ p, p ∉ ms → s'.strings p = s.strings p) ∧ Bucketed s'.next newhash' (s'.bucketIn size) (· < size) ms := by
  induction is generalizing s newhash D with
  | nil =>
    refine ⟨s, newhash, rfl, Relinked.refl s, rfl, fun _ _ => rfl, hb.congr (fun _ _ _ => rfl) (fun _ _ => rfl)
      (fun _ _ => rfl) (fun p => ?_)⟩
    rw [hD]
    exact (and_iff_left List.not_mem_nil).symm
  | cons i is ih =>
    obtain ⟨his, hnd'⟩ := List.nodup_cons.mp hnd
    obtain ⟨xs, hc, hxnd, hxs⟩ := hold i List.mem_cons_self
    have hlen : xs.length ≤ s.objects.length :=
      ((hxnd.subperm (fun p hp => ((hxs p).mp hp).1)).length_le).trans hobj
    have hnotD : ∀ p ∈ xs, ∃ ts, s.strings p = some ts ∧ p ∉ D := by
      intro p hp
      obtain ⟨hpm, hpi⟩ := (hxs p).mp hp
      obtain ⟨ts, hts⟩ := hms p hpm
      exact ⟨ts, hts, fun hpD => ((hD p).mp hpD).2 (hpi ▸ List.mem_cons_self)⟩
    obtain ⟨s₁, newhash₁, D₁, hrun₁, hre₁, hh₁, hn₁, hrest₁, hb₁, hD₁⟩ :=
      rehashchain_spec hc hxnd hnotD hb hlen
    have hold₁ : Bucketed s₁.next s₁.hash old (· ∈ is) ms := by
      have hfewer : Bucketed s.next s.hash old (· ∈ is) ms := fun b hbi =>
        hold b (List.mem_cons_of_mem i hbi)
      refine hfewer.congr (fun p hp hpi => ?_) (fun b _ => by rw [hh₁]) (fun _ _ => rfl)
        (fun _ => Iff.rfl)
      have hpx : p ∉ xs := fun hpx => his (((hxs p).mp hpx).2 ▸ hpi)
      unfold StringState.next
      rw [hrest₁ p hpx]
    obtain ⟨s', newhash', hrun, hre, hn, hloose, hb'⟩ := ih (s := s₁) (D := D₁) hnd'
      (by rw [hre₁.objects]; exact hobj)
      (fun p hp => by
        obtain ⟨ts, hts⟩ := hms p hp
        obtain ⟨ts', hts', _⟩ := hre₁.same.string hts
        exact ⟨ts', hts'⟩)
      hold₁
      (fun p => by
        rw [hD₁, hxs, hD, List.mem_cons, not_or]
        constructor
        · rintro (⟨hp, hpi⟩ | ⟨hp, hpi, hpis⟩)
          · exact ⟨hp, fun hpis => his (hpi ▸ hpis)⟩
          · exact ⟨hp, hpis⟩
        · rintro ⟨hp, hpis⟩
          by_cases hpi : old p = i
          · exact Or.inl ⟨hp, hpi⟩
          · exact Or.inr ⟨hp, hpi, hpis⟩)
      hb₁
    refine ⟨s', newhash', ?_, hre₁.trans hre, hn.trans hn₁, fun p hp => ?_, hb'⟩
    · unfold rehashtable
      simp only [run_bind, strfuel_run, run_get, hrun₁]
      exact hrun
    · rw [hloose p hp, hrest₁ p (fun hpx => hp ((hxs p).mp hpx).1)]

theorem StringsOk.member (h : StringsOk s ms) (hp : p ∈ ms) :
    ∃ ts, s.strings p = some ts ∧ ts.hash = luaS_hash ts.getstr ∧ ts.len = ts.getstr.length := by
  obtain ⟨ts, hts, hh⟩ := h.interned p hp
  exact ⟨ts, hts, hh, h.lens p ts hts⟩

theorem StringsOk.length_le (h : StringsOk s ms) : ms.length ≤ s.objects.length := by
  refine (h.nodup.subperm (fun p hp => ?_)).length_le
  obtain ⟨ts, hts, _⟩ := h.member hp
  exact (h.alloc p).mp (by rw [hts]; exact Option.some_ne_none ts)

theorem StringsOk.bucket_lt (h : StringsOk s ms) (hp : p ∈ ms) : s.bucketIn s.size p < s.size := by
  obtain ⟨ts, hts, _⟩ := h.member hp
  obtain ⟨k, hk⟩ := h.pow
  rw [bucketIn_of hts, hk]
  exact lmod_lt _ _

/-- Links and colours matter for the chains only. -/
theorem StringsOk.congr (h : StringsOk s ms) (hs : SameBodies s s') (hpow : ∃ k, s'.size = 2 ^ k)
    (hnuse : s'.nuse = s.nuse) (hloose : ∀ p, p ∉ ms → s'.next p = s.next p)
    (hc : Bucketed s'.next s'.hash (s'.bucketIn s'.size) (· < s'.size) ms) : StringsOk s' ms where
  pow := hpow
  nodup := h.nodup
  nuse := hnuse.trans h.nuse
  chains := hc
  interned := by
    intro p hp
    obtain ⟨ts, hts, hh, _⟩ := h.member hp
    obtain ⟨ts', hts', he⟩ := hs.string hts
    obtain ⟨h1, _, h3⟩ := body_fields he
    exact ⟨ts', hts', by rw [h1, hh, getstr_congr h3]⟩
  unique := by
    intro p q hp hq hbytes
    rw [hs.bytes, hs.bytes] at hbytes
    exact h.unique p q hp hq hbytes
  lens := by
    intro p ts' hts'
    obtain ⟨ts, hts, he⟩ := hs.symm.string hts'
    obtain ⟨_, h2, h3⟩ := body_fields he
    rw [← h2, ← getstr_congr h3]
    exact h.lens p ts hts
  loose := by
    intro p ts' hts' hp
    obtain ⟨ts, hts, _⟩ := hs.symm.string hts'
    have hn := hloose p hp
    rw [next_of hts', next_of hts] at hn
    exact hn.trans (h.loose p ts hts hp)
  alloc := by
    intro p
    rw [hs.objects, ← h.alloc]
    cases hp : s.strings p with
    | none =>
      have hm := hs.strings p
      rw [hp, Option.map_none] at hm
      rw [Option.map_eq_none_iff.mp hm]
    | some ts =>
      obtain ⟨ts', hts', _⟩ := hs.string hp
      rw [hts']
      exact iff_of_true (Option.some_ne_none _) (Option.some_ne_none _)
  objects := by
    rw [hs.objects]
    exact h.objects

/-- A change of colours keeps the table. -/
theorem StringsOk.recolor (h : StringsOk s ms) (hs : SameBodies s s') (hsize : s'.size = s.size)
    (hhash : s'.hash = s.hash) (hnuse : s'.nuse = s.nuse) (hnext : ∀ p, s'.next p = s.next p) :
    StringsOk s' ms := by
  apply h.congr hs (hsize ▸ h.pow) hnuse (fun p _ => hnext p)
  rw [hsize]
  exact h.chains.congr (fun p _ _ => hnext p) (fun b _ => by rw [hhash]) (fun _ _ => hs.bucketIn)
    (fun _ => Iff.rfl)

/-- Resizing to a power of two keeps the members. -/
theorem luaS_resize_spec (h : StringsOk s ms) (k : ℕ) :
    ∃ s', luaS_resize true (2 ^ k) s = .ok ⟨⟩ s' ∧ StringsOk s' ms ∧ Relinked s s' := by
  have hrange : Bucketed s.next s.hash (s.bucketIn s.size) (· ∈ List.range s.size) ms := by
    intro b hb
    exact h.chains b (List.mem_range.mp hb)
  have hnone : ∀ p, p ∈ ([] : List ℕ) ↔ p ∈ ms ∧ s.bucketIn s.size p ∉ List.range s.size := by
    intro p
    refine iff_of_false List.not_mem_nil (fun hp => hp.2 ?_)
    exact List.mem_range.mpr (h.bucket_lt hp.1)
  obtain ⟨s', newhash, hrun, hre, hnuse, hloose, hb⟩ := @rehashtable_spec _ _ (2 ^ k) _ _ _ _ List.nodup_range h.length_le
    (fun p hp => (h.member hp).imp fun _ hts => hts.1) hrange hnone (bucketed_nil fun _ _ => rfl)
  have hre' : Relinked s { s' with hash := newhash, size := 2 ^ k } :=
    ⟨hre.objects, hre.freed, hre.strings⟩
  have hnext : ∀ p, p ∉ ms → s'.next p = s.next p := by
    intro p hp
    unfold StringState.next
    rw [hloose p hp]
  refine ⟨{ s' with hash := newhash, size := 2 ^ k }, ?_, h.congr hre'.same ⟨k, rfl⟩ hnuse hnext hb, hre'⟩
  unfold luaS_resize
  simp only [if_true, run_bind, run_get, hrun, run_modify]

end Table

end Luwu
