import Vakya.AdapterSources
import Vakya.FramingPlan

/-!
# The hint of a limit that its source cannot meet

`Limited` clamps both bounds of its source's hint. Its comment says that it
avoids inventing an exact truncated length; it does so as long as some allowance
remains. With none left the clamped bounds meet at zero, and a head is planned
with `Content-Length: 0` for a body that can only fail.
-/

namespace Vakya

open Library

def NotAnnounced (h : SizeHint) : Prop :=
  ∀ (headers headers' : Headers) (version : Version) (trailers : TrailerHint) (mode : BodyMode),
    planRequestFraming headers version ⟨h, trailers⟩ = .ok (headers', mode) ∨
      planRepresentationFraming headers version ⟨h, trailers⟩ = .ok (headers', mode) →
    headers'.containsKey .contentLength = false

theorem fixedLength_eq_none {h : SizeHint} (hexact : h.exact = none) (trailers : TrailerHint) :
    BodyMetadata.fixedLength ⟨h, trailers⟩ = none := by
  unfold BodyMetadata.fixedLength
  split_ifs
  · exact hexact
  · rfl

theorem containsKey_insert_ne {headers : Headers} {n n' : HeaderName} (hne : n' ≠ n) (v : HeaderValue) :
    (headers.insert n v).containsKey n' = headers.containsKey n' := by
  rw [Bool.eq_iff_iff, HeaderMap.containsKey_iff, HeaderMap.containsKey_iff,
    HeaderMap.getAll_insert_ne _ hne]

theorem setChunked_contentLength {headers headers' : Headers} (h : setChunked headers = .ok headers') :
    headers'.containsKey .contentLength = false := by
  unfold setChunked at h
  obtain ⟨_, h1, h⟩ := bind_eq_ok h
  obtain ⟨encoding, -, h⟩ := bind_eq_ok h
  have hno := ensure_eq_ok.mp h1
  cases encoding with
  | some framing =>
    cases h
    exact hno
  | none =>
    cases h
    rwa [containsKey_insert_ne (by decide)]

theorem notAnnounced_of_exact_none {h : SizeHint} (hexact : h.exact = none) : NotAnnounced h := by
  intro headers headers' version trailers mode hplan
  have hfixed := fixedLength_eq_none hexact trailers
  rcases hplan with hplan | hplan
  · unfold planRequestFraming at hplan
    simp only [hfixed] at hplan
    obtain ⟨_, -, hplan⟩ := bind_eq_ok hplan
    obtain ⟨edited, hset, hplan⟩ := bind_eq_ok hplan
    cases hplan
    exact setChunked_contentLength hset
  · unfold planRepresentationFraming at hplan
    simp only [hfixed] at hplan
    by_cases hv : version = .http11
    · rw [if_pos hv] at hplan
      obtain ⟨edited, hset, hplan⟩ := bind_eq_ok hplan
      cases hplan
      exact setChunked_contentLength hset
    · rw [if_neg hv] at hplan
      obtain ⟨_, -, hplan⟩ := bind_eq_ok hplan
      obtain ⟨_, hreject, hplan⟩ := bind_eq_ok hplan
      cases hplan
      unfold rejectFramingHeaders at hreject
      split_ifs at hreject with hfields
      simp only [Bool.or_eq_true, not_or, Bool.not_eq_true] at hfields
      exact hfields.1

theorem SizeHint.exact_eq_none_iff (h : SizeHint) : h.exact = none ↔ h.upper ≠ some h.lower := by
  unfold SizeHint.exact
  cases hu : h.upper with
  | none => simp
  | some u =>
    by_cases heq : u = h.lower
    · simp [heq]
    · simp [heq]

variable {I D E : Type}

/-- While a limit is active over a source that needs more than what remains, the limit advertises no
exact length, and no length is announced for it, exactly when something remains. -/
theorem limited_exact_none_iff {b : Body I D E} {s : b.State} {m : ℕ} {hm : m < wordSize}
    {tr : Body.Trace I D (LimitError E)} {t : Limited b.State} {w : Bool} {hint : SizeHint}
    (hr : (limited b).machine.Reaches (Limited.new b s m hm, false) tr (t, w)) (hd : t.done = false)
    (hb : b.sizeHint t.body.state = some hint) (hlower : t.remaining < hint.lower) :
    (∃ h, (limited b).sizeHint t = some h ∧ h.exact = none ∧ NotAnnounced h) ↔ t.remaining ≠ 0 := by
  obtain ⟨s', hheld⟩ := (Limited.slotted.sourced rfl rfl hr).held_of_active hd
  have hheld : t.body = .held s' := hheld
  have hv : t.view = some s' := by simp [Limited.view, Slot.active, hd, hheld, Slot.held?]
  rw [hheld] at hb
  obtain ⟨h, hsize, hlo, hup⟩ := Limited.sizeHint_of_view hv hb
  rw [if_neg (by omega)] at hlo
  have hclamp : min (hint.upper.getD t.remaining) t.remaining = t.remaining := by
    apply min_eq_right
    cases hu : hint.upper with
    | none => exact le_refl _
    | some u =>
      have := hint.ordered u hu
      simp only [Option.getD_some]
      omega
  rw [hclamp] at hup
  have hexact : h.exact = none ↔ t.remaining ≠ 0 := by
    rw [SizeHint.exact_eq_none_iff, hlo, hup]
    simp
  constructor
  · rintro ⟨h', hsize', hnone, -⟩
    obtain rfl : h = h' := Option.some.inj (hsize.symm.trans hsize')
    exact hexact.mp hnone
  · intro hne
    exact ⟨h, hsize, hexact.mpr hne, notAnnounced_of_exact_none (hexact.mpr hne)⟩

/-- Five bytes within a limit of four: no length is announced. -/
theorem limited_exact_none_hello : ∃ h,
    (limited (full (I := Unit) (fun _ : Unit => ascii "hello") fun _ => by decide)).sizeHint
      (.new _ (some ()) 4 (by decide)) = some h ∧ h.exact = none ∧ NotAnnounced h :=
  (limited_exact_none_iff (E := Empty) (.start) rfl rfl (by decide)).mpr (by decide)

/-- Five bytes within a limit of zero: the source needs more than what remains, `Content-Length: 0`
is planned for a request without other fields, and the first poll fails. -/
theorem limited_exact_zero :
    (full (I := Unit) (fun _ : Unit => ascii "hello") fun _ => by decide).sizeHint (some ()) =
      some (.withExact 5 (by decide)) ∧
    ∃ h, (limited (full (I := Unit) (fun _ : Unit => ascii "hello") fun _ => by decide)).sizeHint
        (.new _ (some ()) 0 (by decide)) = some h ∧ h.exact = some 0 ∧
      ((planRequestFraming .empty .http11 ⟨h, .none⟩).toOption.map fun p =>
        (p.1.getAll .contentLength, p.2)) = some ([.ofLength 0], .fixed 0) ∧
      ((limited (full (I := Unit) (fun _ : Unit => ascii "hello") fun _ => by decide)).nextFrame
        (.new _ (some ()) 0 (by decide)) ()).map Prod.snd =
        some (.ready (.error (.limitExceeded 0))) := by
  exact ⟨rfl, .withExact 0 (by decide), rfl, rfl, by decide, rfl⟩

end Vakya
