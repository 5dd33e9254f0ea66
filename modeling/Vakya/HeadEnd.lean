import Vakya.HeadRoundTrip
import Vakya.Decode

/-!
# Where a head ends

`HeadScan` looks for the end of a head byte by byte; `httparse` finds it while it
parses. Both are compared with the first empty line behind the newlines a head may
begin with.
-/

namespace Vakya

def isNewline (b : UInt8) : Bool := b == CR || b == LF

/-- The length of the input through its first empty line; leading newlines do not count. -/
def firstEmptyLine (input : Bytes) : Option ℕ :=
  let leading := input.takeWhile isNewline
  let text := input.dropWhile isNewline
  ((List.range text.length).find? (emptyLineAt text)).map (leading.length + · + 1)

/-- `httparse` consumes a head exactly through its first empty line. -/
def Crates.EndsAtEmptyLine (x : Crates) : Prop :=
  ∀ input slots consumed request,
    x.parseRequest input slots = .ok (.complete consumed request) → firstEmptyLine input = some consumed

namespace HeadScan

def lineAfter (text : Bytes) : ScanLine :=
  if text.getLast? = some LF then .lineEnd
  else if text.getLast? = some CR ∧ text.dropLast.getLast? = some LF then .lineEndCr
  else .content

theorem lineAfter_append (text : Bytes) (b : UInt8) :
    lineAfter (text ++ [b]) = (lineAfter text).next b := by
  have hlead : lineAfter text ≠ .leading := by
    unfold lineAfter
    split_ifs <;> simp
  simp only [lineAfter, List.getLast?_append, List.getLast?_singleton, Option.some_or, Option.some.injEq,
    List.dropLast_concat, ScanLine.next]
  by_cases hb : b = LF
  · subst hb
    split_ifs <;> simp_all [lf_ne_cr]
  · by_cases hc : b = CR
    · subst hc
      split_ifs <;> simp_all
    · split_ifs <;> simp_all

theorem closes_iff {text : Bytes} (hhead : ∃ a rest, text = a :: rest ∧ isNewline a = false) (b : UInt8)
    (more : Bytes) : (lineAfter text).closes b = emptyLineAt (text ++ b :: more) text.length := by
  obtain ⟨a, rest, rfl, ha⟩ := hhead
  have ha' : a ≠ CR ∧ a ≠ LF := by simpa [isNewline] using ha
  have hlast : ((a :: rest) ++ b :: more)[(a :: rest).length - 1]? = (a :: rest).getLast? := by
    rw [List.getElem?_append_left (by simp), List.getLast?_eq_getElem?]
  by_cases hshort : rest = []
  · subst hshort
    simp [lineAfter, ScanLine.closes, emptyLineAt, ha'.1, ha'.2]
  · have hrest : 1 ≤ rest.length := List.length_pos_iff.mpr hshort
    have hlen : 2 ≤ (a :: rest).length := by
      simp only [List.length_cons]
      omega
    have hprev : ((a :: rest) ++ b :: more)[(a :: rest).length - 2]? = (a :: rest).dropLast.getLast? := by
      rw [List.getElem?_append_left (by omega), List.getLast?_eq_getElem?, List.length_dropLast,
        List.getElem?_dropLast]
      rw [if_pos (by omega)]
      rfl
    have hself : ((a :: rest) ++ b :: more)[(a :: rest).length]? = some b := by simp
    have hzero : ((a :: rest).length == 0) = false := by simp
    have hone : ((a :: rest).length == 1) = false := by simpa using hshort
    unfold emptyLineAt lineAfter
    rw [hlast, hprev, hself, hzero, hone]
    generalize (a :: rest).getLast? = last
    generalize (a :: rest).dropLast.getLast? = prev
    by_cases hl : last = some LF
    · simp [ScanLine.closes, hl]
    · by_cases hp : prev = some LF <;> by_cases hc : last = some CR <;>
        simp [ScanLine.closes, hl, hp, hc, hrest]

theorem found_scanFrom {text : Bytes} (hhead : ∃ a rest, text = a :: rest ∧ isNewline a = false) (n : ℕ)
    (more : Bytes) : (scanFrom (n + text.length) (lineAfter text) more).found =
      ((List.range' text.length more.length).find? (emptyLineAt (text ++ more))).map (n + · + 1) := by
  induction more generalizing text with
  | nil => rfl
  | cons b more ih =>
    rw [List.length_cons, List.range'_succ, List.find?_cons, ← closes_iff hhead b more]
    simp only [scanFrom]
    cases hc : (lineAfter text).closes b with
    | true => rfl
    | false =>
      have hnext : ∃ a rest, text ++ [b] = a :: rest ∧ isNewline a = false := by
        obtain ⟨a, rest, rfl, ha⟩ := hhead
        exact ⟨a, rest ++ [b], rfl, ha⟩
      have h := ih hnext
      rw [lineAfter_append, List.length_append, List.length_singleton, ← Nat.add_assoc, List.append_assoc,
        List.singleton_append] at h
      simp only [Bool.false_eq_true, if_false]
      exact h

theorem scanFrom_leading (n : ℕ) (input : Bytes) :
    scanFrom n .leading input =
      scanFrom (n + (input.takeWhile isNewline).length) .leading (input.dropWhile isNewline) := by
  induction input generalizing n with
  | nil => rfl
  | cons b rest ih =>
    by_cases hb : isNewline b = true
    · have hstay : ScanLine.leading.next b = .leading := by
        have hb' : b = CR ∨ b = LF := by simpa [isNewline] using hb
        simp [ScanLine.next, hb']
      rw [List.takeWhile_cons_of_pos hb, List.dropWhile_cons_of_pos hb, List.length_cons]
      simp only [scanFrom, ScanLine.closes, Bool.false_and, Bool.false_eq_true, if_false, hstay, reduceCtorEq,
        decide_false, Bool.or_self]
      rw [ih]
      congr 1
      omega
    · rw [List.takeWhile_cons_of_neg hb, List.dropWhile_cons_of_neg hb]
      rfl

/-- The scan finds the first empty line. -/
theorem found_eq_firstEmptyLine (input : Bytes) :
    (scanFrom 0 .leading input).found = firstEmptyLine input := by
  rw [scanFrom_leading, firstEmptyLine]
  generalize hlead : (input.takeWhile isNewline).length = n
  cases htext : input.dropWhile isNewline with
  | nil => rfl
  | cons b rest =>
    have hb : isNewline b = false := by
      have := List.head?_dropWhile_not isNewline input
      simpa [htext] using this
    have hb' : b ≠ CR ∧ b ≠ LF := by simpa [isNewline] using hb
    have hstep : scanFrom (0 + n) .leading (b :: rest) = scanFrom (n + 1) (lineAfter [b]) rest := by
      simp [scanFrom, ScanLine.closes, ScanLine.next, lineAfter, hb'.1, hb'.2]
    have hfirst : emptyLineAt (b :: rest) 0 = false := by simp [emptyLineAt, hb'.2]
    have hscan := found_scanFrom ⟨b, [], rfl, hb⟩ n rest
    simp only [List.length_singleton, List.singleton_append] at hscan
    rw [hstep, hscan, List.length_cons, List.range_eq_range', List.range'_succ, List.find?_cons, hfirst]

end HeadScan

namespace Reference

theorem andThen_eq_ok {A B : Type} {r : Reading A} {f : A → Bytes → Reading B} {b : B} {rest : Bytes}
    (h : andThen r f = .ok (some (b, rest))) :
    ∃ a after, r = .ok (some (a, after)) ∧ f a after = .ok (some (b, rest)) := by
  unfold andThen at h
  split at h
  · cases h
  · cases h
  · exact ⟨_, _, rfl, h⟩

theorem newline_eq_ok {input rest : Bytes} (h : newline input = .ok (some ((), rest))) :
    input = LF :: rest ∨ input = CR :: LF :: rest := by
  unfold newline at h
  split at h
  · cases h
  · split_ifs at h with hlf hcr
    · cases h
      exact .inl (by rw [hlf])
    · split at h
      · cases h
      · split_ifs at h with hlf'
        cases h
        exact .inr (by rw [hcr, hlf'])

theorem stretch_eq_ok {p : UInt8 → Bool} {input text rest : Bytes}
    (h : stretch p input = .ok (some (text, rest))) :
    input = text ++ rest ∧ text ≠ [] ∧ text.all p = true := by
  unfold stretch at h
  split_ifs at h with hall hnone
  · cases h
  · cases h
    exact ⟨List.takeWhile_append_dropWhile.symm, hnone, List.all_takeWhile⟩

theorem space_eq_ok {input rest : Bytes} (h : space input = .ok (some ((), rest))) : input = SP :: rest := by
  unfold space at h
  split at h
  · cases h
  · split_ifs at h with hsp
    cases h
    rw [hsp]

theorem version_eq_ok {input rest : Bytes} {minor : ℕ} (h : version input = .ok (some (minor, rest))) :
    ∃ text, input = text ++ rest ∧ IsLine text ∧ text ≠ [] := by
  have hline {text : Bytes} (ht : text.all isFieldByte = true) (hne : text ≠ []) (htake : input.take 8 = text)
      (hrest : input.drop 8 = rest) : ∃ text, input = text ++ rest ∧ IsLine text ∧ text ≠ [] :=
    ⟨text, by rw [← htake, ← hrest, List.take_append_drop], isLine_of_fieldBytes ht, hne⟩
  unfold version at h
  split_ifs at h with h0 h1
  · cases h
    exact hline (by decide) (by decide) h0 rfl
  · cases h
    exact hline (by decide) (by decide) h1 rfl
  · cases h

theorem target_eq_ok {input text rest : Bytes} (h : target input = .ok (some (text, rest))) :
    input = text ++ rest ∧ IsLine text ∧ text ≠ [] := by
  obtain ⟨text', after, hstretch, h⟩ := andThen_eq_ok h
  split_ifs at h
  cases h
  obtain ⟨hinput, hne, hall⟩ := stretch_eq_ok hstretch
  refine ⟨hinput, fun b hb => ?_, hne⟩
  have hv := List.all_eq_true.mp hall b hb
  constructor <;> (rintro rfl; revert hv; decide)

theorem field_eq_ok {input rest : Bytes} {f : RawHeader} (h : field input = .ok (some (f, rest))) :
    ∃ text after, input = text ++ after ∧ IsLine text ∧ text ≠ [] ∧ newline after = .ok (some ((), rest)) := by
  simp only [field] at h
  split at h
  · cases h
  · rename_i b value hdrop
    split_ifs at h with hname
    split at h
    · rename_i after hnl
      cases h
      refine ⟨input.takeWhile isTchar ++ b :: value.takeWhile isFieldByte, value.dropWhile isFieldByte, ?_, ?_,
        by simp, hnl⟩
      · rw [List.append_assoc, List.cons_append, List.takeWhile_append_dropWhile, ← hdrop,
          List.takeWhile_append_dropWhile]
      · have hcolon : b = COLON := by
          by_contra hb
          exact hname (.inr hb)
        refine .append (fun c hc => ?_) (fun c hc => ?_)
        · have ht := List.all_eq_true.mp List.all_takeWhile c hc
          exact ⟨isTchar_ne ht (by decide), isTchar_ne ht (by decide)⟩
        · rcases List.mem_cons.mp hc with rfl | hc
          · rw [hcolon]
            decide
          · exact isLine_of_fieldBytes List.all_takeWhile c hc
    · cases h
    · cases h

open HeadScan

theorem scan_line {text after rest : Bytes} (h : IsLine text) (hne : text ≠ [])
    (hnl : newline after = .ok (some ((), rest))) (n : ℕ) (line : ScanLine) :
    ∃ m, m + rest.length = n + (text ++ after).length ∧
      scanFrom n line (text ++ after) = scanFrom m .lineEnd rest := by
  rw [scanFrom_text h hne]
  rcases newline_eq_ok hnl with rfl | rfl
  · exact ⟨n + text.length + 1, by simp; omega, rfl⟩
  · exact ⟨n + text.length + 2, by simp; omega, rfl⟩

theorem scan_fields {slots : ℕ} {input rest : Bytes} {fs : List RawHeader}
    (h : fields slots input = .ok (some (fs, rest))) (n : ℕ) :
    ∃ m, m + rest.length = n + input.length ∧ scanFrom n .lineEnd input = .complete m := by
  have hempty {input rest : Bytes} (n : ℕ) (hnl : newline input = .ok (some ((), rest))) :
      ∃ m, m + rest.length = n + input.length ∧ scanFrom n .lineEnd input = .complete m := by
    rcases newline_eq_ok hnl with rfl | rfl
    · exact ⟨n + 1, by simp; omega, rfl⟩
    · exact ⟨n + 2, by simp; omega, rfl⟩
  induction slots generalizing input n fs with
  | zero =>
    unfold fields at h
    split at h
    · rename_i hnl
      cases h
      exact hempty n hnl
    · cases h
    · cases h
  | succ slots ih =>
    unfold fields at h
    split at h
    · rename_i hnl
      cases h
      exact hempty n hnl
    · cases h
    · simp only at h
      split at h
      · cases h
      · cases h
      · rename_i f after hfield
        split at h
        · cases h
        · cases h
        · rename_i fs' rest' hfields
          cases h
          obtain ⟨text, nl, rfl, htext, hne, hnl⟩ := field_eq_ok hfield
          obtain ⟨m, hm, hscan⟩ := scan_line htext hne hnl n .lineEnd
          obtain ⟨m', hm', hscan'⟩ := ih hfields m
          exact ⟨m', by omega, hscan.trans hscan'⟩

theorem endsAtEmptyLine : reference.EndsAtEmptyLine := by
  intro input slots consumed request h
  simp only [reference, report] at h
  split at h
  · cases h
  · cases h
  · rename_i raw rest hrequest
    cases h
    unfold Reference.request at hrequest
    obtain ⟨method, r1, h1, hrequest⟩ := andThen_eq_ok hrequest
    obtain ⟨_, r2, h2, hrequest⟩ := andThen_eq_ok hrequest
    obtain ⟨target, r3, h3, hrequest⟩ := andThen_eq_ok hrequest
    obtain ⟨_, r4, h4, hrequest⟩ := andThen_eq_ok hrequest
    obtain ⟨minor, r5, h5, hrequest⟩ := andThen_eq_ok hrequest
    obtain ⟨_, r6, h6, hrequest⟩ := andThen_eq_ok hrequest
    obtain ⟨fs, r7, h7, hrequest⟩ := andThen_eq_ok hrequest
    cases hrequest
    obtain ⟨rfl, hmethod, htoken⟩ := stretch_eq_ok h1
    obtain rfl := space_eq_ok h2
    obtain ⟨rfl, htarget, -⟩ := target_eq_ok h3
    obtain rfl := space_eq_ok h4
    obtain ⟨text, rfl, htext, -⟩ := version_eq_ok h5
    have hline : IsLine (method ++ [SP] ++ target ++ [SP] ++ text) := by
      refine .append (.append (.append (.append (fun b hb => ?_) isLine_sp) htarget) isLine_sp) htext
      have ht := List.all_eq_true.mp htoken b hb
      exact ⟨isTchar_ne ht (by decide), isTchar_ne ht (by decide)⟩
    obtain ⟨m, hm, hscan⟩ := scan_line hline (by simp) h6 0 .leading
    obtain ⟨m', hm', hscan'⟩ := scan_fields h7 m
    have hsplit : method ++ SP :: (target ++ SP :: (text ++ r5)) = method ++ [SP] ++ target ++ [SP] ++ text ++ r5 := by
      simp
    rw [← found_eq_firstEmptyLine, hsplit, hscan, hscan', HeadScan.found]
    congr 1
    omega

end Reference
end Vakya
