import Vakya.Decode
import Vakya.Members

/-!
# The grammar of chunk lines

`parse_chunk_line` cuts a line at its first semicolon, trims what is left of it
over and over, and loops over the extensions. It accepts exactly the lines of
the grammar below. Trimming the end of the rest is harmless: whitespace at the
end of a line belongs to its last extension, and a quoted string ends in a quote.
-/

namespace Vakya

def isQdtext (b : UInt8) : Bool := b == HTAB || (0x20 ≤ b && b != 0x7f && b != DQUOTE && b != BACKSLASH)

inductive QuotedText : Bytes → Prop
  | nil : QuotedText []
  | text {b : UInt8} {rest : Bytes} : isQdtext b = true → QuotedText rest → QuotedText (b :: rest)
  | escape {b : UInt8} {rest : Bytes} : b ≠ CR → b ≠ LF → QuotedText rest →
      QuotedText (BACKSLASH :: b :: rest)

inductive ExtensionText : Bytes → Prop
  | token {value : Bytes} : isToken value = true → ExtensionText value
  | quoted {body : Bytes} : QuotedText body → ExtensionText (DQUOTE :: (body ++ [DQUOTE]))

def IsOwsText (text : Bytes) : Prop := text.all isOws = true

/-- `;` OWS token OWS, and optionally `=` OWS value OWS. -/
inductive ChunkExtension : Bytes → Prop
  | bare {w₁ name w₂ : Bytes} : IsOwsText w₁ → isToken name = true → IsOwsText w₂ →
      ChunkExtension (SEMICOLON :: (w₁ ++ (name ++ w₂)))
  | valued {w₁ name w₂ w₃ value w₄ : Bytes} : IsOwsText w₁ → isToken name = true → IsOwsText w₂ →
      IsOwsText w₃ → ExtensionText value → IsOwsText w₄ →
      ChunkExtension (SEMICOLON :: (w₁ ++ (name ++ (w₂ ++ EQUALS :: (w₃ ++ (value ++ w₄))))))

inductive ChunkExtensions : Bytes → Prop
  | nil : ChunkExtensions []
  | cons {extension rest : Bytes} : ChunkExtension extension → ChunkExtensions rest →
      ChunkExtensions (extension ++ rest)

/-- The value of hexadecimal digits, the first one the most significant. -/
def hexValue (digits : Bytes) : ℕ := digits.foldl (fun value digit => value * 16 + (hex digit).getD 0) 0

def ChunkLine (line : Bytes) (n : ℕ) : Prop :=
  ∃ digits w extensions, line = digits ++ (w ++ extensions) ∧ digits ≠ [] ∧
    digits.all isAsciiHexdigit = true ∧ hexValue digits = n ∧ n < wordSize ∧ IsOwsText w ∧
    ChunkExtensions extensions

/-- The unreachable arm of `hex` is unreachable. -/
theorem hex_of_isAsciiHexdigit {b : UInt8} (h : isAsciiHexdigit b = true) : ∃ v, hex b = some v ∧ v < 16 := by
  simp only [isAsciiHexdigit, isAsciiDigit, Bool.or_eq_true, Bool.and_eq_true, decide_eq_true_eq] at h
  have hle {c : UInt8} (hc : b ≤ c) : b.toNat ≤ c.toNat := UInt8.le_iff_toNat_le.mp hc
  unfold hex
  split_ifs with hdigit hlower hupper
  · have : b.toNat ≤ 57 := hle hdigit.2
    exact ⟨_, rfl, by omega⟩
  · have : b.toNat ≤ 102 := hle hlower.2
    exact ⟨_, rfl, by omega⟩
  · have : b.toNat ≤ 70 := hle hupper.2
    exact ⟨_, rfl, by omega⟩
  · rcases h with (h | h) | h
    · exact absurd h hdigit
    · exact absurd h hupper
    · exact absurd h hlower

theorem le_hexFoldl (size : ℕ) (digits : Bytes) :
    size ≤ digits.foldl (fun value digit => value * 16 + (hex digit).getD 0) size := by
  induction digits generalizing size with
  | nil => exact le_rfl
  | cons d digits ih =>
    rw [List.foldl_cons]
    have := ih (size * 16 + (hex d).getD 0)
    omega

/-- The checked fold fails exactly if the value does not fit; nothing that overflows on the way
comes back into range. -/
theorem hexFold_eq_some {size n : ℕ} {digits : Bytes} (hsize : size < wordSize) :
    hexFold size digits = some n ↔
      digits.foldl (fun value digit => value * 16 + (hex digit).getD 0) size = n ∧ n < wordSize := by
  induction digits generalizing size with
  | nil =>
    simp only [hexFold, List.foldlM_nil, List.foldl_nil, Option.pure_def, Option.some.injEq]
    constructor
    · rintro rfl
      exact ⟨rfl, hsize⟩
    · exact And.left
  | cons d digits ih =>
    have hstep : hexFold size (d :: digits) =
        ((checkedMul size 16).bind (checkedAdd · ((hex d).getD 0))).bind (hexFold · digits) := rfl
    rw [hstep, List.foldl_cons]
    have hge := le_hexFoldl (size * 16 + (hex d).getD 0) digits
    by_cases hfits : size * 16 + (hex d).getD 0 < wordSize
    · have hmul : checkedMul size 16 = some (size * 16) := if_pos (by omega)
      have hadd : checkedAdd (size * 16) ((hex d).getD 0) = some (size * 16 + (hex d).getD 0) := if_pos hfits
      rw [hmul, Option.bind_some, hadd, Option.bind_some]
      exact ih hfits
    · have hnone : (checkedMul size 16).bind (checkedAdd · ((hex d).getD 0)) = none := by
        unfold checkedMul
        split_ifs
        · exact if_neg hfits
        · rfl
      rw [hnone, Option.bind_none]
      constructor
      · intro h
        cases h
      · rintro ⟨rfl, hlt⟩
        omega

theorem scan_of_quotedText {body : Bytes} (h : QuotedText body) (index : ℕ) (rest : Bytes) :
    quotedStringScan false index (body ++ DQUOTE :: rest) = some (index + body.length + 1) := by
  induction h generalizing index with
  | nil =>
    have hback : DQUOTE ≠ BACKSLASH := by decide
    simp [quotedStringScan, hback]
  | @text b body hb _ ih =>
    have hplain : b ≠ BACKSLASH ∧ b ≠ DQUOTE ∧ ¬(b = CR ∨ b = LF ∨ b = 0x7f ∨ (b < 0x20 ∧ b ≠ HTAB)) := by
      simp only [isQdtext, Bool.or_eq_true, Bool.and_eq_true, beq_iff_eq, bne_iff_ne, decide_eq_true_eq] at hb
      rcases hb with rfl | ⟨⟨⟨hge, hdel⟩, hquote⟩, hback⟩
      · decide
      · refine ⟨hback, hquote, ?_⟩
        rintro (rfl | rfl | rfl | ⟨hlt, -⟩)
        · exact absurd hge (by decide)
        · exact absurd hge (by decide)
        · exact hdel rfl
        · exact absurd hge (by grind)
    simp only [List.cons_append, quotedStringScan, Bool.false_eq_true, if_false, hplain.1, hplain.2.1, hplain.2.2]
    rw [ih, List.length_cons]
    congr 1
    omega
  | @escape b body hcr hlf _ ih =>
    have hnot : ¬(b = CR ∨ b = LF) := by simp [hcr, hlf]
    simp only [List.cons_append, quotedStringScan, Bool.false_eq_true, if_false, if_true, hnot]
    rw [ih, List.length_cons, List.length_cons]
    congr 1
    omega

theorem quotedText_of_scan {escaped : Bool} {index n : ℕ} {input : Bytes}
    (h : quotedStringScan escaped index input = some n) :
    ∃ before body rest, input = before ++ (body ++ DQUOTE :: rest) ∧ QuotedText body ∧
      n = index + (before ++ body).length + 1 ∧
      (if escaped then ∃ b, before = [b] ∧ b ≠ CR ∧ b ≠ LF else before = []) := by
  induction input generalizing escaped index with
  | nil => cases h
  | cons b input ih =>
    simp only [quotedStringScan] at h
    split_ifs at h with hesc hend hback hquote hbad
    · obtain ⟨before, body, rest, rfl, hbody, rfl, rfl⟩ := ih h
      obtain ⟨hcr, hlf⟩ := not_or.mp hend
      exact ⟨[b], body, rest, rfl, hbody, by simp; omega, by simp [hesc, hcr, hlf]⟩
    · -- The escaped byte is the first of what follows.
      obtain ⟨before, body, rest, rfl, hbody, rfl, c, rfl, hcr, hlf⟩ := ih h
      refine ⟨[], BACKSLASH :: c :: body, rest, by simp [hback], .escape hcr hlf hbody, by simp; omega, ?_⟩
      simp [hesc]
    · cases h
      exact ⟨[], [], input, by simp [hquote], .nil, by simp, by simp [hesc]⟩
    · obtain ⟨before, body, rest, rfl, hbody, rfl, rfl⟩ := ih h
      have hqd : isQdtext b = true := by
        simp only [isQdtext, Bool.or_eq_true, Bool.and_eq_true, beq_iff_eq, bne_iff_ne, decide_eq_true_eq]
        by_cases htab : b = HTAB
        · exact .inl htab
        · refine .inr ⟨⟨⟨?_, ?_⟩, hquote⟩, hback⟩
          · by_contra hlt
            exact hbad (.inr (.inr (.inr ⟨by grind, htab⟩)))
          · exact fun hdel => hbad (.inr (.inr (.inl hdel)))
      exact ⟨[], b :: body, rest, rfl, .text hqd hbody, by simp; omega, by simp [hesc]⟩

theorem quotedStringLen_quoted {body : Bytes} (h : QuotedText body) (rest : Bytes) :
    quotedStringLen (DQUOTE :: (body ++ [DQUOTE]) ++ rest) = some (DQUOTE :: (body ++ [DQUOTE])).length := by
  have hscan := scan_of_quotedText h 1 rest
  simp only [quotedStringLen, List.cons_append, List.append_assoc, List.nil_append, List.tail_cons, hscan,
    List.length_cons, List.length_append, List.length_nil]
  congr 1
  omega

theorem extensionValueLen_sound {input : Bytes} {n : ℕ} (h : extensionValueLen input = some n) :
    ∃ value rest, input = value ++ rest ∧ n = value.length ∧ ExtensionText value := by
  simp only [extensionValueLen] at h
  split_ifs at h with hquote hzero
  · obtain ⟨tail, rfl⟩ : ∃ tail, input = DQUOTE :: tail := by
      cases input with
      | nil => cases hquote
      | cons b tail =>
        cases hquote
        exact ⟨tail, rfl⟩
    obtain ⟨before, body, rest, htail, hbody, rfl, rfl⟩ := quotedText_of_scan h
    rw [List.tail_cons] at htail
    refine ⟨DQUOTE :: (body ++ [DQUOTE]), rest, ?_, ?_, .quoted hbody⟩
    · simp [htail]
    · simp
      omega
  · cases h
    refine ⟨input.takeWhile isTchar, input.dropWhile isTchar, List.takeWhile_append_dropWhile.symm, rfl, .token ?_⟩
    have hne : input.takeWhile isTchar ≠ [] := fun hnil => hzero (by rw [hnil]; rfl)
    simp only [isToken, Bool.and_eq_true, Bool.not_eq_true', List.isEmpty_eq_false_iff]
    exact ⟨hne, List.all_takeWhile⟩

theorem takeWhile_token {name rest : Bytes} (h : isToken name = true) (hstop : ∀ b ∈ rest.head?, isTchar b = false) :
    (name ++ rest).takeWhile isTchar = name := by
  simp only [isToken, Bool.and_eq_true] at h
  rw [List.takeWhile_append_of_pos (List.all_eq_true.mp h.2)]
  cases rest with
  | nil => simp
  | cons b rest => simp [hstop b rfl]

theorem extensionValueLen_complete {value rest : Bytes} (h : ExtensionText value)
    (hstop : ∀ b ∈ rest.head?, isTchar b = false) : extensionValueLen (value ++ rest) = some value.length := by
  cases h with
  | @quoted body hbody =>
    have hhead : (DQUOTE :: (body ++ [DQUOTE]) ++ rest).head? = some DQUOTE := rfl
    rw [extensionValueLen, if_pos hhead, quotedStringLen_quoted hbody]
  | token htoken =>
    have hne : value ≠ [] ∧ value.all isTchar = true := by simpa [isToken] using htoken
    have hhead : (value ++ rest).head? ≠ some DQUOTE := by
      obtain ⟨b, tail, rfl⟩ := List.exists_cons_of_ne_nil hne.1
      have hb := List.all_eq_true.mp hne.2 b (by simp)
      intro hq
      cases hq
      exact absurd hb (by decide)
    have hlen : value.length ≠ 0 := by simp [hne.1]
    simp only [extensionValueLen, if_neg hhead, takeWhile_token htoken hstop, if_neg hlen]

theorem trimmed_of_append {a b : Bytes} (h : trimEnd (a ++ b) = a ++ b) : trimEnd b = b := by
  apply trimEnd_of_last
  intro c hc
  have hne : b ≠ [] := by
    rintro rfl
    cases hc
  have hlast := List.rdropWhile_eq_self_iff.mp h (by simp [hne])
  rw [List.getLast_append_of_ne_nil _ hne] at hlast
  rw [List.getLast?_eq_some_getLast hne] at hc
  cases hc
  simpa using hlast

theorem trimOws_trimmed {w s : Bytes} (hw : IsOwsText w) (hs : trimEnd s = s)
    (hhead : ∀ b ∈ s.head?, isOws b = false) : trimOws (w ++ s) = s := by
  have hdrop : s.dropWhile isOws = s := by
    cases s with
    | nil => rfl
    | cons b s => exact List.dropWhile_cons_of_neg (by simp [hhead b rfl])
  rw [trimOws_append_left hw, trimOws, hdrop, hs]

theorem exists_ows_of_trimmed {s : Bytes} (hs : trimEnd s = s) :
    ∃ w, IsOwsText w ∧ s = w ++ trimOws s ∧ trimEnd (trimOws s) = trimOws s := by
  have hsplit : s = s.takeWhile isOws ++ s.dropWhile isOws := List.takeWhile_append_dropWhile.symm
  have hrest : trimEnd (s.dropWhile isOws) = s.dropWhile isOws := by
    apply trimmed_of_append (a := s.takeWhile isOws)
    rw [← hsplit, hs]
  have heq : trimOws s = s.dropWhile isOws := hrest
  exact ⟨s.takeWhile isOws, List.all_takeWhile, by rw [heq]; exact hsplit, by rw [heq, hrest]⟩

def AtExtension (s : Bytes) : Prop := s = [] ∨ s.head? = some SEMICOLON

theorem AtExtension.not_tchar {s : Bytes} (h : AtExtension s) : ∀ b ∈ s.head?, isTchar b = false := by
  rintro b hb
  rcases h with rfl | hs
  · cases hb
  · rw [hs] at hb
    cases hb
    decide

theorem AtExtension.not_ows {s : Bytes} (h : AtExtension s) : ∀ b ∈ s.head?, isOws b = false := by
  rintro b hb
  rcases h with rfl | hs
  · cases hb
  · rw [hs] at hb
    cases hb
    decide

theorem not_ows_of_isTchar {b : UInt8} (h : isTchar b = true) : isOws b = false := by
  by_contra hb
  simp only [isOws, Bool.not_eq_false, Bool.or_eq_true, beq_iff_eq] at hb
  rcases hb with rfl | rfl
  · exact absurd h (by decide)
  · exact absurd h (by decide)

theorem not_tchar_of_isOws {b : UInt8} (h : isOws b = true) : isTchar b = false := by
  by_contra hb
  rw [not_ows_of_isTchar (by simpa using hb)] at h
  cases h

theorem head_append_ows {w s : Bytes} (hw : IsOwsText w) (hs : ∀ b ∈ s.head?, isTchar b = false) :
    ∀ b ∈ (w ++ s).head?, isTchar b = false := by
  intro b hb
  cases w with
  | nil => exact hs b hb
  | cons c w =>
    cases hb
    exact not_tchar_of_isOws (List.all_eq_true.mp hw _ (by simp))

theorem head_token {name : Bytes} (h : isToken name = true) (rest : Bytes) :
    ∀ b ∈ (name ++ rest).head?, isOws b = false := by
  have hne : name ≠ [] ∧ name.all isTchar = true := by simpa [isToken] using h
  obtain ⟨c, tail, rfl⟩ := List.exists_cons_of_ne_nil hne.1
  intro b hb
  cases hb
  exact not_ows_of_isTchar (List.all_eq_true.mp hne.2 _ (by simp))

theorem head_extensionText {value : Bytes} (h : ExtensionText value) (rest : Bytes) :
    ∀ b ∈ (value ++ rest).head?, isOws b = false := by
  cases h with
  | token htoken => exact head_token htoken rest
  | quoted _ =>
    intro b hb
    cases hb
    decide

theorem extensionName_complete {name w s : Bytes} (hname : isToken name = true) (hw : IsOwsText w)
    (hs : trimEnd s = s) (hows : ∀ b ∈ s.head?, isOws b = false) (hstop : ∀ b ∈ s.head?, isTchar b = false) :
    extensionName (name ++ (w ++ s)) = some s := by
  have hlen : name.length ≠ 0 := by
    have hne : name ≠ [] ∧ name.all isTchar = true := by simpa [isToken] using hname
    simp [hne.1]
  simp only [extensionName, takeWhile_token hname (head_append_ows hw hstop), if_neg hlen, List.drop_left,
    trimOws_trimmed hw hs hows]

theorem extensionName_sound {input rest : Bytes} (hinput : trimEnd input = input)
    (h : extensionName input = some rest) :
    ∃ name w, isToken name = true ∧ IsOwsText w ∧ input = name ++ (w ++ rest) ∧ trimEnd rest = rest := by
  simp only [extensionName] at h
  split_ifs at h with hzero
  cases h
  have hsplit : input = input.takeWhile isTchar ++ input.drop (input.takeWhile isTchar).length :=
    List.prefix_iff_eq_append.mp (List.takeWhile_prefix isTchar) |>.symm
  -- what is behind the name ends as the input does
  have htrim : trimEnd (input.drop (input.takeWhile isTchar).length) = input.drop (input.takeWhile isTchar).length :=
    trimmed_of_append (a := input.takeWhile isTchar) (by rw [← hsplit, hinput])
  obtain ⟨w, hw, heq, hrest⟩ := exists_ows_of_trimmed htrim
  refine ⟨input.takeWhile isTchar, w, ?_, hw, ?_, hrest⟩
  · have hne : input.takeWhile isTchar ≠ [] := fun hnil => hzero (by rw [hnil]; rfl)
    simp only [isToken, Bool.and_eq_true, Bool.not_eq_true', List.isEmpty_eq_false_iff]
    exact ⟨hne, List.all_takeWhile⟩
  · rw [← heq]
    exact hsplit

theorem extensionValue_complete {w value w' s : Bytes} (hw : IsOwsText w) (hvalue : ExtensionText value)
    (hw' : IsOwsText w') (hs : trimEnd s = s) (hat : AtExtension s)
    (htrim : trimEnd (value ++ (w' ++ s)) = value ++ (w' ++ s)) :
    extensionValue (EQUALS :: (w ++ (value ++ (w' ++ s)))) = some s := by
  simp only [extensionValue, List.head?_cons, if_true, List.tail_cons,
    trimOws_trimmed hw htrim (head_extensionText hvalue _),
    extensionValueLen_complete hvalue (head_append_ows hw' hat.not_tchar), Option.map_some, List.drop_left,
    trimOws_trimmed hw' hs hat.not_ows]

theorem extensionValue_sound {input rest : Bytes} (hinput : trimEnd input = input)
    (h : extensionValue input = some rest) :
    rest = input ∨ ∃ w value w', IsOwsText w ∧ ExtensionText value ∧ IsOwsText w' ∧
      input = EQUALS :: (w ++ (value ++ (w' ++ rest))) := by
  simp only [extensionValue] at h
  split_ifs at h with hequals
  · obtain ⟨tail, rfl⟩ := List.head?_eq_some_iff.mp hequals
    rw [List.tail_cons] at h
    obtain ⟨n, hn, rfl⟩ := Option.map_eq_some_iff.mp h
    have htail : trimEnd tail = tail := trimmed_of_append (a := [EQUALS]) hinput
    obtain ⟨w, hw, heq, htrim⟩ := exists_ows_of_trimmed htail
    obtain ⟨value, after, hvalue, rfl, htext⟩ := extensionValueLen_sound hn
    rw [hvalue, List.drop_left]
    -- the line was trimmed, so every part that ends it is
    have hafter : trimEnd after = after := by
      apply trimmed_of_append (a := value)
      rw [← hvalue, htrim]
    obtain ⟨w', hw', heq', -⟩ := exists_ows_of_trimmed hafter
    refine .inr ⟨w, value, w', hw, htext, hw', ?_⟩
    rw [← heq', ← hvalue, ← heq]
  · cases h
    exact .inl rfl

theorem extensionTurn_complete {extension rest : Bytes} (h : ChunkExtension extension)
    (htrim : trimEnd (extension ++ rest) = extension ++ rest) (hat : AtExtension rest) :
    extensionTurn (extension ++ rest) = some rest := by
  have hrest : trimEnd rest = rest := trimmed_of_append htrim
  have hlast : ¬(rest ≠ [] ∧ rest.head? ≠ some SEMICOLON) := by
    rintro ⟨hne, hsemi⟩
    rcases hat with hnil | hhead
    · exact hne hnil
    · exact hsemi hhead
  have hstart : trimOws (extension ++ rest) = extension ++ rest := by
    apply trimOws_trimmed (w := []) rfl htrim
    intro b hb
    cases h
    all_goals
      cases hb
      decide
  cases h with
  | @bare w₁ name w₂ hw₁ hname hw₂ =>
    simp only [List.cons_append, List.append_assoc] at htrim hstart ⊢
    have hafter : trimEnd (name ++ (w₂ ++ rest)) = name ++ (w₂ ++ rest) :=
      trimmed_of_append (a := SEMICOLON :: w₁) (by simpa using htrim)
    -- what follows is a semicolon or nothing, so no value is looked for
    have hequals : rest.head? ≠ some EQUALS := by
      rcases hat with rfl | hhead
      · intro hnone
        cases hnone
      · rw [hhead]
        decide
    have hname := extensionName_complete hname hw₂ hrest hat.not_ows hat.not_tchar
    have hvalue : extensionValue rest = some rest := if_neg hequals
    simp only [extensionTurn, hstart, List.head?_cons, ne_eq, not_true_eq_false, if_false, List.tail_cons,
      trimOws_trimmed hw₁ hafter (head_token ‹_› _), hname, Option.bind_some, hvalue]
    exact if_neg hlast
  | @valued w₁ name w₂ w₃ value w₄ hw₁ hname hw₂ hw₃ hvalue hw₄ =>
    simp only [List.cons_append, List.append_assoc] at htrim hstart ⊢
    have hafter : trimEnd (name ++ (w₂ ++ EQUALS :: (w₃ ++ (value ++ (w₄ ++ rest))))) =
        name ++ (w₂ ++ EQUALS :: (w₃ ++ (value ++ (w₄ ++ rest)))) :=
      trimmed_of_append (a := SEMICOLON :: w₁) (by simpa using htrim)
    have hassigned : trimEnd (EQUALS :: (w₃ ++ (value ++ (w₄ ++ rest)))) =
        EQUALS :: (w₃ ++ (value ++ (w₄ ++ rest))) :=
      trimmed_of_append (a := name ++ w₂) (by simpa using hafter)
    have htext : trimEnd (value ++ (w₄ ++ rest)) = value ++ (w₄ ++ rest) :=
      trimmed_of_append (a := EQUALS :: w₃) (by simpa using hassigned)
    -- the name stops at the equals sign, which is neither a token byte nor whitespace
    have hnamed := extensionName_complete hname hw₂ hassigned (by rintro b ⟨⟩; decide) (by rintro b ⟨⟩; decide)
    have htaken := extensionValue_complete hw₃ hvalue hw₄ hrest hat htext
    simp only [extensionTurn, hstart, List.head?_cons, ne_eq, not_true_eq_false, if_false, List.tail_cons,
      trimOws_trimmed hw₁ hafter (head_token hname _), hnamed, Option.bind_some, htaken]
    exact if_neg hlast

theorem extensionTurn_sound {s rest : Bytes} (hs : trimEnd s = s) (hat : AtExtension s)
    (h : extensionTurn s = some rest) :
    ∃ extension, ChunkExtension extension ∧ s = extension ++ rest ∧ AtExtension rest := by
  have hstart : trimOws s = s := trimOws_trimmed (w := []) rfl hs hat.not_ows
  simp only [extensionTurn, hstart] at h
  split_ifs at h with hsemi
  obtain ⟨tail, rfl⟩ := List.head?_eq_some_iff.mp (not_not.mp hsemi)
  obtain ⟨named, hnamed, h⟩ := Option.bind_eq_some_iff.mp h
  obtain ⟨valued, hvalued, h⟩ := Option.bind_eq_some_iff.mp h
  split_ifs at h with hend
  cases h
  have hrest : AtExtension rest := by
    by_cases hnil : rest = []
    · exact .inl hnil
    · exact .inr (by simpa [hnil] using hend)
  rw [List.tail_cons] at hnamed
  obtain ⟨w₁, hw₁, htail, htrim⟩ := exists_ows_of_trimmed (trimmed_of_append (a := [SEMICOLON]) hs)
  obtain ⟨name, w₂, hname, hw₂, hname_eq, hnamed_trim⟩ := extensionName_sound htrim hnamed
  rcases extensionValue_sound hnamed_trim hvalued with rfl | ⟨w₃, value, w₄, hw₃, htext, hw₄, rfl⟩
  · refine ⟨_, .bare hw₁ hname hw₂, ?_, hrest⟩
    rw [htail, hname_eq]
    simp
  · refine ⟨_, .valued hw₁ hname hw₂ hw₃ htext hw₄, ?_, hrest⟩
    rw [htail, hname_eq]
    simp

theorem validateExtensions_nil : validateExtensions [] = .ok () := by
  rw [validateExtensions, if_pos rfl]

theorem validateExtensions_of_ne {input : Bytes} (h : input ≠ []) :
    validateExtensions input = match extensionTurn input with
      | none => .error .invalidChunkExtension
      | some rest => validateExtensions rest := by
  rw [validateExtensions, if_neg h]
  split
  · rename_i hturn _
    rw [hturn]
  · rename_i hturn _
    rw [hturn]

theorem ChunkExtension.atExtension {extension : Bytes} (h : ChunkExtension extension) (rest : Bytes) :
    AtExtension (extension ++ rest) ∧ extension ++ rest ≠ [] := by
  cases h
  all_goals exact ⟨.inr rfl, List.cons_ne_nil _ _⟩

theorem ChunkExtensions.atExtension {s : Bytes} (h : ChunkExtensions s) : AtExtension s := by
  cases h with
  | nil => exact .inl rfl
  | cons hext _ => exact (hext.atExtension _).1

/-- On trimmed input the loop follows the grammar, one turn for each extension. -/
theorem validateExtensions_trimmed {s : Bytes} (hs : trimEnd s = s) (hat : AtExtension s) :
    validateExtensions s = .ok () ↔ ChunkExtensions s := by
  constructor
  · intro h
    -- The induction is on the length, which each turn decreases.
    induction hn : s.length using Nat.strong_induction_on generalizing s with
    | _ n ih =>
      subst hn
      by_cases hnil : s = []
      · rw [hnil]
        exact .nil
      · rw [validateExtensions_of_ne hnil] at h
        cases hturn : extensionTurn s with
        | none =>
          rw [hturn] at h
          cases h
        | some rest =>
          rw [hturn] at h
          have hshort := length_extensionTurn hturn
          obtain ⟨extension, hext, rfl, hrest⟩ := extensionTurn_sound hs hat hturn
          exact .cons hext (ih _ hshort (trimmed_of_append hs) hrest h rfl)
  · intro h
    clear hat
    induction h with
    | nil => exact validateExtensions_nil
    | cons hext hrest ih =>
      rw [validateExtensions_of_ne (hext.atExtension _).2, extensionTurn_complete hext hs hrest.atExtension]
      exact ih (trimmed_of_append hs)

theorem isOwsText_nil : IsOwsText [] := rfl

theorem isOwsText_append {a b : Bytes} : IsOwsText (a ++ b) ↔ IsOwsText a ∧ IsOwsText b := by
  simp [IsOwsText]

theorem ChunkExtension.append_ows {extension w : Bytes} (h : ChunkExtension extension) (hw : IsOwsText w) :
    ChunkExtension (extension ++ w) := by
  cases h with
  | bare hw₁ hname hw₂ =>
    have := ChunkExtension.bare hw₁ hname (isOwsText_append.mpr ⟨hw₂, hw⟩)
    simpa using this
  | valued hw₁ hname hw₂ hw₃ hvalue hw₄ =>
    have := ChunkExtension.valued hw₁ hname hw₂ hw₃ hvalue (isOwsText_append.mpr ⟨hw₄, hw⟩)
    simpa using this

theorem ChunkExtensions.append_ows {s w : Bytes} (h : ChunkExtensions s) (hs : s ≠ []) (hw : IsOwsText w) :
    ChunkExtensions (s ++ w) := by
  induction h with
  | nil => exact absurd rfl hs
  | @cons extension rest hext hrest ih =>
    by_cases hnil : rest = []
    · subst hnil
      have := ChunkExtensions.cons (hext.append_ows hw) .nil
      simpa using this
    · rw [List.append_assoc]
      exact .cons hext (ih hnil)

theorem trimEnd_idem (s : Bytes) : trimEnd (trimEnd s) = trimEnd s := List.rdropWhile_idempotent ..

theorem exists_ows_of_trimEnd (s : Bytes) : ∃ w, IsOwsText w ∧ s = trimEnd s ++ w := by
  refine ⟨s.rtakeWhile isOws, ?_, (List.rdropWhile_append_rtakeWhile ..).symm⟩
  simp [IsOwsText, List.rtakeWhile]

theorem last_token {name : Bytes} (h : isToken name = true) : ∀ b ∈ name.getLast?, isOws b = false := by
  simp only [isToken, Bool.and_eq_true] at h
  intro b hb
  exact not_ows_of_isTchar (List.all_eq_true.mp h.2 b (List.mem_of_getLast? hb))

theorem last_extensionText {value : Bytes} (h : ExtensionText value) :
    value ≠ [] ∧ ∀ b ∈ value.getLast?, isOws b = false := by
  cases h with
  | token htoken =>
    have hne : value ≠ [] ∧ value.all isTchar = true := by simpa [isToken] using htoken
    exact ⟨hne.1, last_token htoken⟩
  | quoted _ =>
    refine ⟨List.cons_ne_nil _ _, ?_⟩
    intro b hb
    rw [← List.cons_append, List.getLast?_concat] at hb
    cases hb
    decide

theorem trimEnd_of_last_part {a b w : Bytes} (hb : b ≠ []) (hlast : ∀ c ∈ b.getLast?, isOws c = false)
    (hw : IsOwsText w) : trimEnd (a ++ b ++ w) = a ++ b := by
  rw [trimEnd_append hw]
  apply trimEnd_of_last
  rw [List.getLast?_append_of_ne_nil _ hb]
  exact hlast

theorem ChunkExtension.trimEnd {extension : Bytes} (h : ChunkExtension extension) :
    ChunkExtension (trimEnd extension) := by
  cases h with
  | @bare w₁ name w₂ hw₁ hname hw₂ =>
    have hne : name ≠ [] ∧ name.all isTchar = true := by simpa [isToken] using hname
    have := trimEnd_of_last_part (a := SEMICOLON :: w₁) hne.1 (last_token hname) hw₂
    have hbare := ChunkExtension.bare hw₁ hname isOwsText_nil
    simp only [List.cons_append, List.append_assoc, List.append_nil] at this hbare
    rw [this]
    exact hbare
  | @valued w₁ name w₂ w₃ value w₄ hw₁ hname hw₂ hw₃ hvalue hw₄ =>
    have := trimEnd_of_last_part (a := SEMICOLON :: (w₁ ++ (name ++ (w₂ ++ EQUALS :: w₃))))
      (last_extensionText hvalue).1 (last_extensionText hvalue).2 hw₄
    have hvalued := ChunkExtension.valued hw₁ hname hw₂ hw₃ hvalue isOwsText_nil
    simp only [List.cons_append, List.append_assoc, List.append_nil] at this hvalued
    rw [this]
    exact hvalued

theorem trimEnd_append_of_ne {a b : Bytes} (h : trimEnd b ≠ []) : trimEnd (a ++ b) = a ++ trimEnd b := by
  obtain ⟨w, hw, hb⟩ := exists_ows_of_trimEnd b
  have hlast : ∀ c ∈ (Vakya.trimEnd b).getLast?, isOws c = false := by
    intro c hc
    rw [List.getLast?_eq_some_getLast h] at hc
    cases hc
    exact Bool.eq_false_iff.mpr (List.rdropWhile_last_not isOws b h)
  conv_lhs => rw [hb, ← List.append_assoc]
  exact trimEnd_of_last_part h hlast hw

theorem ChunkExtensions.trimEnd {s : Bytes} (h : ChunkExtensions s) : ChunkExtensions (trimEnd s) := by
  induction h with
  | nil => exact .nil
  | @cons extension rest hext hrest ih =>
    by_cases hnil : Vakya.trimEnd rest = []
    · have hows : IsOwsText rest := by
        simpa [IsOwsText] using List.rdropWhile_eq_nil_iff.mp hnil
      rw [trimEnd_append hows]
      have := ChunkExtensions.cons hext.trimEnd .nil
      simpa using this
    · rw [trimEnd_append_of_ne hnil]
      exact .cons hext ih

theorem validateExtensions_trimEnd {s : Bytes} (hat : AtExtension s) :
    validateExtensions s = validateExtensions (trimEnd s) ∧ AtExtension (trimEnd s) := by
  obtain rfl | hhead := hat
  · exact ⟨rfl, .inl rfl⟩
  · obtain ⟨tail, rfl⟩ : ∃ tail, s = SEMICOLON :: tail := by
      cases s with
      | nil => cases hhead
      | cons b tail =>
        cases hhead
        exact ⟨tail, rfl⟩
    obtain ⟨tail', htail⟩ : ∃ tail', Vakya.trimEnd (SEMICOLON :: tail) = SEMICOLON :: tail' := by
      by_cases hnil : Vakya.trimEnd tail = []
      · refine ⟨[], ?_⟩
        have hows : IsOwsText tail := by simpa [IsOwsText] using List.rdropWhile_eq_nil_iff.mp hnil
        exact trimEnd_of_last_part (a := []) (b := [SEMICOLON]) (List.cons_ne_nil _ _)
          (by rintro c ⟨⟩; decide) hows
      · exact ⟨_, trimEnd_append_of_ne (a := [SEMICOLON]) hnil⟩
    have htrim : trimOws (SEMICOLON :: tail) = trimOws (Vakya.trimEnd (SEMICOLON :: tail)) := by
      obtain ⟨w, hw, hs⟩ := exists_ows_of_trimEnd (SEMICOLON :: tail)
      conv_lhs => rw [hs, trimOws_append_right hw]
    have hturn : extensionTurn (SEMICOLON :: tail) = extensionTurn (Vakya.trimEnd (SEMICOLON :: tail)) := by
      simp only [extensionTurn, htrim]
    constructor
    · rw [validateExtensions_of_ne (List.cons_ne_nil _ _), hturn,
        validateExtensions_of_ne (by rw [htail]; exact List.cons_ne_nil _ _)]
    · rw [htail]
      exact .inr rfl

theorem validateExtensions_iff {s : Bytes} (hat : AtExtension s) :
    validateExtensions s = .ok () ↔ ChunkExtensions s := by
  obtain ⟨heq, hat'⟩ := validateExtensions_trimEnd hat
  rw [heq, validateExtensions_trimmed (trimEnd_idem s) hat']
  constructor
  · intro h
    obtain ⟨w, hw, hs⟩ := exists_ows_of_trimEnd s
    by_cases hnil : trimEnd s = []
    · have hempty : s = [] := by
        rcases hat with rfl | hhead
        · rfl
        · have hmem := List.rdropWhile_eq_nil_iff.mp hnil SEMICOLON (List.mem_of_mem_head? hhead)
          exact absurd hmem (by decide)
      rw [hempty]
      exact .nil
    · rw [hs]
      exact h.append_ows hnil hw
  · exact ChunkExtensions.trimEnd

theorem hexdigit_facts {b : UInt8} (h : isAsciiHexdigit b = true) : b ≠ SEMICOLON ∧ isOws b = false := by
  constructor
  · rintro rfl
    exact absurd h (by decide)
  · by_contra hb
    simp only [isOws, Bool.not_eq_false, Bool.or_eq_true, beq_iff_eq] at hb
    rcases hb with rfl | rfl
    · exact absurd h (by decide)
    · exact absurd h (by decide)

/-- No size and no whitespace after it holds a semicolon, so the first one starts the extensions. -/
theorem splitExtension_line {digits w s : Bytes} (hdigits : digits.all isAsciiHexdigit = true) (hw : IsOwsText w)
    (hat : AtExtension s) : splitExtension (digits ++ (w ++ s)) = (digits ++ w, s) := by
  have hfront : ∀ b ∈ digits ++ w, (b != SEMICOLON) = true := by
    intro b hb
    rw [bne_iff_ne]
    rcases List.mem_append.mp hb with hb | hb
    · exact (hexdigit_facts (List.all_eq_true.mp hdigits b hb)).1
    · rintro rfl
      exact absurd (List.all_eq_true.mp hw _ hb) (by decide)
  have hback : s.takeWhile (· != SEMICOLON) = [] ∧ s.dropWhile (· != SEMICOLON) = s := by
    rcases hat with rfl | hhead
    · exact ⟨rfl, rfl⟩
    · cases s with
      | nil => cases hhead
      | cons b s =>
        cases hhead
        exact ⟨rfl, rfl⟩
  simp only [splitExtension, ← List.append_assoc, List.takeWhile_append_of_pos hfront, hback.1, hback.2,
    List.dropWhile_append_of_pos hfront, List.append_nil]

theorem atExtension_splitExtension (line : Bytes) : AtExtension (splitExtension line).2 := by
  simp only [splitExtension]
  cases hrest : line.dropWhile (· != SEMICOLON) with
  | nil => exact .inl rfl
  | cons b rest =>
    have hb := List.head?_dropWhile_not (· != SEMICOLON) line
    rw [hrest] at hb
    refine .inr ?_
    simpa using hb

theorem trimEnd_digits {digits w : Bytes} (hdigits : digits.all isAsciiHexdigit = true) (hw : IsOwsText w) :
    trimEnd (digits ++ w) = digits := by
  rw [trimEnd_append hw]
  apply trimEnd_of_last
  intro b hb
  exact (hexdigit_facts (List.all_eq_true.mp hdigits b (List.mem_of_getLast? hb))).2

theorem parseChunkLine_iff {line : Bytes} {n : ℕ} : parseChunkLine line = .ok n ↔ ChunkLine line n := by
  constructor
  · intro h
    obtain ⟨w, hw, hsize⟩ := exists_ows_of_trimEnd (splitExtension line).1
    have hline : line = (splitExtension line).1 ++ (splitExtension line).2 :=
      List.takeWhile_append_dropWhile.symm
    simp only [parseChunkLine] at h
    split_ifs at h with hbad
    simp only [not_or, not_not] at hbad
    split at h
    · cases h
    · rename_i size hfold
      split at h
      · cases h
      · rename_i hext
        cases h
        obtain ⟨hvalue, hlt⟩ := (hexFold_eq_some (by decide)).mp hfold
        refine ⟨_, w, _, ?_, hbad.1, hbad.2, hvalue, hlt, hw,
          (validateExtensions_iff (atExtension_splitExtension line)).mp hext⟩
        rw [← List.append_assoc, ← hsize]
        exact hline
  · rintro ⟨digits, w, extensions, rfl, hne, hdigits, hvalue, hlt, hw, hext⟩
    have hfold : hexFold 0 digits = some n := (hexFold_eq_some (by decide)).mpr ⟨hvalue, hlt⟩
    have hvalid := (validateExtensions_iff hext.atExtension).mpr hext
    have hok : ¬(digits = [] ∨ ¬digits.all isAsciiHexdigit = true) := by simp [hne, hdigits]
    simp only [parseChunkLine, splitExtension_line hdigits hw hext.atExtension, trimEnd_digits hdigits hw,
      if_neg hok, hfold, hvalid]

inductive Fault
  | outOfRange
  | unreachable
  | conversion
  | underflow
  | stalled
  | outOfFuel
deriving DecidableEq, Repr

def sliceFrom (input : Bytes) (n : ℕ) : Except Fault Bytes :=
  if n ≤ input.length then .ok (input.drop n) else .error .outOfRange

def sliceTo (input : Bytes) (n : ℕ) : Except Fault Bytes :=
  if n ≤ input.length then .ok (input.take n) else .error .outOfRange

def checkedHex (b : UInt8) : Except Fault ℕ :=
  match hex b with
  | some v => .ok v
  | none => .error .unreachable

def checkedFold (size : ℕ) : Bytes → Except Fault (Option ℕ)
  | [] => .ok (some size)
  | digit :: digits =>
    match checkedMul size 16 with
    | none => .ok none
    | some size => do
      match checkedAdd size (← checkedHex digit) with
      | none => .ok none
      | some size => checkedFold size digits

/-- The branch for `=`: what follows the value, trimmed. -/
def checkedValue (input : Bytes) : Except Fault (Option Bytes) :=
  if input.head? = some EQUALS then do
    let input := trimOws (← sliceFrom input 1)
    match extensionValueLen input with
    | none => .ok none
    | some value => .ok (some (trimOws (← sliceFrom input value)))
  else .ok (some input)

def checkedTurn (input : Bytes) : Except Fault (Option Bytes) :=
  let input := trimOws input
  if input.head? ≠ some SEMICOLON then .ok none
  else do
    let input := trimOws (← sliceFrom input 1)
    let name := (input.takeWhile isTchar).length
    if name = 0 then .ok none
    else
      match ← checkedValue (trimOws (← sliceFrom input name)) with
      | none => .ok none
      | some input => if input ≠ [] ∧ input.head? ≠ some SEMICOLON then .ok none else .ok (some input)

/-- The loop of `validate_extensions`, a turn of it for each unit of fuel. -/
def checkedExtensions : ℕ → Bytes → Except Fault (Except DecodeError Unit)
  | fuel, input =>
    if input = [] then .ok (.ok ())
    else
      match fuel with
      | 0 => .error .outOfFuel
      | fuel + 1 => do
        match ← checkedTurn input with
        | none => .ok (.error .invalidChunkExtension)
        | some rest => checkedExtensions fuel rest

def checkedChunkLine (fuel : ℕ) (line : Bytes) : Except Fault (Except DecodeError ℕ) := do
  let extension := line.findIdx (· == SEMICOLON)
  let sizeText := trimEnd (← sliceTo line extension)
  if sizeText = [] ∨ ¬ sizeText.all isAsciiHexdigit then .ok (.error .invalidChunkSize)
  else
    match ← checkedFold 0 sizeText with
    | none => .ok (.error .invalidChunkSize)
    | some size =>
      match ← checkedExtensions fuel (← sliceFrom line extension) with
      | .error e => .ok (.error e)
      | .ok () => .ok (.ok size)

theorem sliceFrom_eq {input : Bytes} {n : ℕ} (h : n ≤ input.length) : sliceFrom input n = .ok (input.drop n) :=
  if_pos h

theorem sliceFrom_one {input : Bytes} {b : UInt8} (h : input.head? = some b) :
    sliceFrom input 1 = .ok input.tail := by
  cases input with
  | nil => cases h
  | cons c input => exact if_pos (by simp)

theorem checkedFold_eq {size : ℕ} {digits : Bytes} (h : digits.all isAsciiHexdigit = true) :
    checkedFold size digits = .ok (hexFold size digits) := by
  induction digits generalizing size with
  | nil => rfl
  | cons d digits ih =>
    simp only [List.all_cons, Bool.and_eq_true] at h
    obtain ⟨v, hv, -⟩ := hex_of_isAsciiHexdigit h.1
    have hhex : checkedHex d = .ok v := by rw [checkedHex, hv]
    have hstep : hexFold size (d :: digits) =
        ((checkedMul size 16).bind (checkedAdd · ((hex d).getD 0))).bind (hexFold · digits) := rfl
    rw [checkedFold, hstep, hv, Option.getD_some]
    cases checkedMul size 16 with
    | none => rfl
    | some size =>
      simp only [hhex, Option.bind_some]
      change (match checkedAdd size v with
        | none => Except.ok none
        | some size => checkedFold size digits) = _
      cases checkedAdd size v with
      | none => rfl
      | some size => exact ih h.2

theorem checkedValue_eq (input : Bytes) : checkedValue input = .ok (extensionValue input) := by
  unfold checkedValue extensionValue
  split_ifs with hequals
  · simp only [sliceFrom_one hequals, ok_bind]
    cases hlen : extensionValueLen (trimOws input.tail) with
    | none => rfl
    | some value =>
      obtain ⟨text, rest, htext, rfl, -⟩ := extensionValueLen_sound hlen
      have hle : text.length ≤ (trimOws input.tail).length := by simp [htext]
      simp only [sliceFrom_eq hle, ok_bind, Option.map_some]
  · rfl

theorem checkedTurn_eq (input : Bytes) : checkedTurn input = .ok (extensionTurn input) := by
  unfold checkedTurn extensionTurn extensionName
  simp only
  split_ifs with hsemi hzero
  · rfl
  · rw [not_not] at hsemi
    simp only [sliceFrom_one hsemi, ok_bind, if_pos hzero, Option.bind_none]
  · rw [not_not] at hsemi
    have hle := (List.takeWhile_prefix isTchar (l := trimOws (trimOws input).tail)).length_le
    simp only [sliceFrom_one hsemi, ok_bind, if_neg hzero, sliceFrom_eq hle, checkedValue_eq, Option.bind_some]
    cases extensionValue (trimOws ((trimOws (trimOws input).tail).drop _)) with
    | none => rfl
    | some rest =>
      simp only [Option.bind_some]
      split_ifs
      · rfl
      · rfl

/-- A turn for each byte is more than enough. -/
theorem checkedExtensions_eq {fuel : ℕ} {input : Bytes} (h : input.length ≤ fuel) :
    checkedExtensions fuel input = .ok (validateExtensions input) := by
  induction fuel generalizing input with
  | zero =>
    obtain rfl : input = [] := List.eq_nil_of_length_eq_zero (by omega)
    rw [checkedExtensions, if_pos rfl, validateExtensions_nil]
  | succ fuel ih =>
    by_cases hnil : input = []
    · rw [hnil, checkedExtensions, if_pos rfl, validateExtensions_nil]
    · rw [checkedExtensions, if_neg hnil, validateExtensions_of_ne hnil]
      simp only [checkedTurn_eq, ok_bind]
      cases hturn : extensionTurn input with
      | none => rfl
      | some rest =>
        have hshort := length_extensionTurn hturn
        exact ih (by omega)

theorem checkedChunkLine_eq {fuel : ℕ} {line : Bytes} (h : line.length ≤ fuel) :
    checkedChunkLine fuel line = .ok (parseChunkLine line) := by
  have hpred : (fun b : UInt8 => !(b != SEMICOLON)) = fun b => b == SEMICOLON := by
    funext b
    simp only [bne, Bool.not_not]
  have hle : line.findIdx (· == SEMICOLON) ≤ line.length := List.findIdx_le_length
  have hsize : sliceTo line (line.findIdx (· == SEMICOLON)) = .ok (splitExtension line).1 := by
    rw [sliceTo, if_pos hle, splitExtension, List.takeWhile_eq_take_findIdx_not, hpred]
  have hrest : sliceFrom line (line.findIdx (· == SEMICOLON)) = .ok (splitExtension line).2 := by
    rw [sliceFrom_eq hle, splitExtension, List.dropWhile_eq_drop_findIdx_not, hpred]
  have hshort : (splitExtension line).2.length ≤ fuel :=
    (List.length_dropWhile_le ..).trans h
  simp only [checkedChunkLine, parseChunkLine, hsize, ok_bind]
  split_ifs with hbad
  · rfl
  · simp only [not_or, not_not] at hbad
    simp only [checkedFold_eq hbad.2, ok_bind]
    cases hexFold 0 (trimEnd (splitExtension line).1) with
    | none => rfl
    | some size =>
      simp only [hrest, ok_bind, checkedExtensions_eq hshort]
      cases validateExtensions (splitExtension line).2 with
      | error e => rfl
      | ok => rfl

/-- Exactly the grammar is accepted, with the value of the digits. Given a turn for each byte, no
slice of the source is out of range, no digit is unreachable and the loop stops. -/
theorem parseChunkLine_grammar (line : Bytes) :
    (∀ n, parseChunkLine line = .ok n ↔ ChunkLine line n) ∧
      ((∀ n, ¬ChunkLine line n) → ∃ e, parseChunkLine line = .error e) ∧
      ∀ fuel, line.length ≤ fuel → checkedChunkLine fuel line = .ok (parseChunkLine line) := by
  refine ⟨fun n => parseChunkLine_iff, ?_, fun fuel h => checkedChunkLine_eq h⟩
  intro hnone
  cases hparse : parseChunkLine line with
  | error e => exact ⟨e, rfl⟩
  | ok n => exact absurd (parseChunkLine_iff.mp hparse) (hnone n)

/-- The semicolon and the escaped quote inside the quotes do not end the first extension. -/
theorem parseChunkLine_grammar_sample :
    checkedChunkLine 32 (ascii "00fF\t;a = \"x;\\\" \" ; b ") = .ok (.ok 255) ∧
      ChunkLine (ascii "00fF\t;a = \"x;\\\" \" ; b ") 255 := by
  have hrun : checkedChunkLine 32 (ascii "00fF\t;a = \"x;\\\" \" ; b ") = .ok (.ok 255) := by rfl
  obtain ⟨hiff, -, hsafe⟩ := parseChunkLine_grammar (ascii "00fF\t;a = \"x;\\\" \" ; b ")
  refine ⟨hrun, (hiff 255).mp ?_⟩
  rw [hsafe 32 (by decide)] at hrun
  exact Except.ok.inj hrun

end Vakya
