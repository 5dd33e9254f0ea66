import Vakya.ChunkGrammar

/-!
# Control bytes in accepted text

`quoted_string_len` refuses control bytes between the quotes, but after a backslash it refuses only
CR and LF. An accepted chunk line or parameter list is free of control bytes exactly if none of them
is escaped. Names, tokens, whitespace and plain quoted text contribute none.
-/

namespace Vakya

def isControl (b : UInt8) : Bool := b != HTAB && (b < 0x20 || b == 0x7f)

def ControlFree (text : Bytes) : Prop := ∀ b ∈ text, isControl b = false

instance (text : Bytes) : Decidable (ControlFree text) :=
  inferInstanceAs (Decidable (∀ b ∈ text, isControl b = false))

def EscapesClean (text : Bytes) : Prop := ∀ b, [BACKSLASH, b] <:+: text → isControl b = false

def OnlyEscaped (text : Bytes) : Prop := EscapesClean text → ControlFree text

theorem EscapesClean.of_infix {part text : Bytes} (h : EscapesClean text) (hpart : part <:+: text) :
    EscapesClean part :=
  fun b hb => h b (hb.trans hpart)

theorem ControlFree.escapesClean {text : Bytes} (h : ControlFree text) : EscapesClean text := by
  intro b hb
  apply h
  exact hb.subset (by simp)

theorem ControlFree.onlyEscaped {text : Bytes} (h : ControlFree text) : OnlyEscaped text := fun _ => h

theorem onlyEscaped_nil : OnlyEscaped [] := fun _ => by simp [ControlFree]

theorem OnlyEscaped.append {a b : Bytes} (ha : OnlyEscaped a) (hb : OnlyEscaped b) : OnlyEscaped (a ++ b) := by
  intro hclean c hc
  rcases List.mem_append.mp hc with hc | hc
  · exact ha (hclean.of_infix (List.prefix_append a b).isInfix) c hc
  · exact hb (hclean.of_infix (List.suffix_append a b).isInfix) c hc

theorem OnlyEscaped.cons {b : UInt8} {text : Bytes} (hb : isControl b = false) (h : OnlyEscaped text) :
    OnlyEscaped (b :: text) := by
  have hone : ControlFree [b] := by simpa [ControlFree] using hb
  exact hone.onlyEscaped.append h

theorem isControl_of_isTchar {b : UInt8} (h : isTchar b = true) : isControl b = false := by
  by_contra hb
  have hcases : b < 0x20 ∨ b = 0x7f := by
    simp only [isControl, Bool.not_eq_false, Bool.and_eq_true, Bool.or_eq_true, decide_eq_true_eq, beq_iff_eq] at hb
    exact hb.2
  rcases hcases with hlt | rfl
  · have hall : ∀ c : Fin 32, isTchar (UInt8.ofNat c) = false := by decide
    have hnat : b.toNat < 32 := UInt8.lt_iff_toNat_lt.mp hlt
    have := hall ⟨b.toNat, hnat⟩
    rw [UInt8.ofNat_toNat, h] at this
    cases this
  · exact absurd h (by decide)

theorem controlFree_token {name : Bytes} (h : isToken name = true) : ControlFree name := by
  simp only [isToken, Bool.and_eq_true] at h
  intro b hb
  exact isControl_of_isTchar (List.all_eq_true.mp h.2 b hb)

theorem controlFree_ows {w : Bytes} (h : IsOwsText w) : ControlFree w := by
  intro b hb
  have hows := List.all_eq_true.mp h b hb
  simp only [isOws, Bool.or_eq_true, beq_iff_eq] at hows
  rcases hows with rfl | rfl
  · decide
  · decide

theorem controlFree_digits {digits : Bytes} (h : digits.all isAsciiHexdigit = true) : ControlFree digits := by
  intro b hb
  apply isControl_of_isTchar
  have hdigit := List.all_eq_true.mp h b hb
  simp only [isTchar, isAsciiAlphanumeric, Bool.or_eq_true]
  simp only [isAsciiHexdigit, Bool.or_eq_true, Bool.and_eq_true, decide_eq_true_eq] at hdigit
  rcases hdigit with (hdigit | hupper) | hlower
  · exact .inl (.inl (.inl hdigit))
  · exact .inl (.inl (.inr (by simp only [Bool.and_eq_true, decide_eq_true_eq]; exact ⟨hupper.1, by grind⟩)))
  · exact .inl (.inr (by simp only [Bool.and_eq_true, decide_eq_true_eq]; exact ⟨hlower.1, by grind⟩))

theorem isControl_of_isQdtext {b : UInt8} (h : isQdtext b = true) : isControl b = false := by
  simp only [isQdtext, Bool.or_eq_true, Bool.and_eq_true, beq_iff_eq, bne_iff_ne, decide_eq_true_eq] at h
  rcases h with rfl | ⟨⟨⟨hge, hdel⟩, -⟩, -⟩
  · rfl
  · have hlt : ¬b < 0x20 := by grind
    simp [isControl, hlt, hdel]

/-- The one place where the condition is used. -/
theorem onlyEscaped_quotedText {body : Bytes} (h : QuotedText body) : OnlyEscaped body := by
  induction h with
  | nil => exact onlyEscaped_nil
  | text hb _ ih => exact ih.cons (isControl_of_isQdtext hb)
  | @escape b rest _ _ _ ih =>
    intro hclean
    -- the escaped byte is the only one the grammar leaves open
    have hb : isControl b = false := hclean b (List.prefix_append [BACKSLASH, b] rest).isInfix
    exact (ih.cons hb).cons (by decide) hclean

theorem onlyEscaped_extensionText {value : Bytes} (h : ExtensionText value) : OnlyEscaped value := by
  cases h with
  | token htoken => exact (controlFree_token htoken).onlyEscaped
  | quoted hbody =>
    have hquote : OnlyEscaped [DQUOTE] := onlyEscaped_nil.cons (by decide)
    exact ((onlyEscaped_quotedText hbody).append hquote).cons (by decide)

theorem onlyEscaped_chunkExtension {extension : Bytes} (h : ChunkExtension extension) : OnlyEscaped extension := by
  cases h with
  | bare hw₁ hname hw₂ =>
    apply OnlyEscaped.cons (by decide)
    apply (controlFree_ows hw₁).onlyEscaped.append
    exact (controlFree_token hname).onlyEscaped.append (controlFree_ows hw₂).onlyEscaped
  | valued hw₁ hname hw₂ hw₃ hvalue hw₄ =>
    apply OnlyEscaped.cons (by decide)
    apply (controlFree_ows hw₁).onlyEscaped.append
    apply (controlFree_token hname).onlyEscaped.append
    apply (controlFree_ows hw₂).onlyEscaped.append
    apply OnlyEscaped.cons (by decide)
    apply (controlFree_ows hw₃).onlyEscaped.append
    exact (onlyEscaped_extensionText hvalue).append (controlFree_ows hw₄).onlyEscaped

theorem onlyEscaped_chunkExtensions {s : Bytes} (h : ChunkExtensions s) : OnlyEscaped s := by
  induction h with
  | nil => exact onlyEscaped_nil
  | cons hext _ ih => exact (onlyEscaped_chunkExtension hext).append ih

theorem onlyEscaped_chunkLine {line : Bytes} {n : ℕ} (h : ChunkLine line n) : OnlyEscaped line := by
  obtain ⟨digits, w, extensions, rfl, -, hdigits, -, -, hw, hext⟩ := h
  apply (controlFree_digits hdigits).onlyEscaped.append
  exact (controlFree_ows hw).onlyEscaped.append (onlyEscaped_chunkExtensions hext)

theorem onlyEscaped_of_trimOws {s : Bytes} (h : OnlyEscaped (trimOws s)) : OnlyEscaped s := by
  obtain ⟨pre, post, hpre, hpost, hs⟩ := exists_trimOws s
  rw [hs]
  apply (controlFree_ows hpre).onlyEscaped.append
  exact h.append (controlFree_ows hpost).onlyEscaped

theorem onlyEscaped_of_tail {s : Bytes} {b : UInt8} (hs : s.head? = some b) (hb : isControl b = false)
    (h : OnlyEscaped s.tail) : OnlyEscaped s := by
  obtain ⟨rest, rfl⟩ := List.head?_eq_some_iff.mp hs
  exact h.cons hb

theorem onlyEscaped_of_transferParameter {input rest : Bytes} (h : transferParameter input = some rest)
    (hrest : OnlyEscaped rest) : OnlyEscaped input := by
  unfold transferParameter at h
  split_ifs at h with hsemi
  rw [not_not] at hsemi
  simp only at h
  split_ifs at h with hname hequals
  rw [not_not] at hequals
  split at h
  · cases h
  · rename_i n hvalue
    split_ifs at h
    cases h
    apply onlyEscaped_of_tail hsemi (by decide)
    apply onlyEscaped_of_trimOws
    -- the name, then the value behind its equals sign
    rw [← List.take_append_drop ((trimOws input.tail).takeWhile isTchar).length (trimOws input.tail)]
    refine OnlyEscaped.append ?_ (onlyEscaped_of_trimOws (onlyEscaped_of_tail hequals (by decide) ?_))
    · apply ControlFree.onlyEscaped
      intro b hb
      rw [List.prefix_iff_eq_take.mp (List.takeWhile_prefix isTchar) |>.symm] at hb
      exact isControl_of_isTchar (List.mem_takeWhile_imp hb)
    · obtain ⟨value, after, hsplit, rfl, htext⟩ := extensionValueLen_sound hvalue
      apply onlyEscaped_of_trimOws
      rw [hsplit, List.drop_left] at hrest
      rw [hsplit]
      exact (onlyEscaped_extensionText htext).append (onlyEscaped_of_trimOws hrest)

theorem validateTransferParameters_nil : validateTransferParameters [] = .ok () := by
  rw [validateTransferParameters, if_pos rfl]

theorem validateTransferParameters_of_turn {input rest : Bytes} (h : transferParameter input = some rest) :
    validateTransferParameters input = validateTransferParameters rest := by
  have hne : input ≠ [] := by
    rintro rfl
    cases h
  rw [validateTransferParameters, if_neg hne]
  split
  · rename_i hnone _
    rw [hnone] at h
    cases h
  · rename_i hsome _
    rw [hsome] at h
    cases h
    rfl

theorem onlyEscaped_transferParameters {input : Bytes} (h : validateTransferParameters input = .ok ()) :
    OnlyEscaped input := by
  induction hn : input.length using Nat.strong_induction_on generalizing input with
  | _ n ih =>
    subst hn
    rw [validateTransferParameters] at h
    split_ifs at h with hnil
    · rw [hnil]
      exact onlyEscaped_nil
    · split at h
      · cases h
      · rename_i rest _ hturn _
        exact onlyEscaped_of_transferParameter hturn (ih _ (length_transferParameter hturn) h rfl)

/-- What is accepted is free of control bytes if and only if no control byte is escaped in it. -/
theorem controlFree_iff_escapesClean (text : Bytes) :
    (∀ n, parseChunkLine text = .ok n → (ControlFree text ↔ EscapesClean text)) ∧
      (validateTransferParameters text = .ok () → (ControlFree text ↔ EscapesClean text)) := by
  constructor
  · intro n h
    exact ⟨ControlFree.escapesClean, onlyEscaped_chunkLine (parseChunkLine_iff.mp h)⟩
  · intro h
    exact ⟨ControlFree.escapesClean, onlyEscaped_transferParameters h⟩

theorem controlFree_iff_escapesClean_sample :
    parseChunkLine (ascii "1;a=\"\\\"\"") = .ok 1 ∧ EscapesClean (ascii "1;a=\"\\\"\"") ∧
      validateTransferParameters (ascii ";q=\"\t\"") = .ok () ∧ EscapesClean (ascii ";q=\"\t\"") := by
  have hline : parseChunkLine (ascii "1;a=\"\\\"\"") = .ok 1 := by
    have hrun : checkedChunkLine 16 (ascii "1;a=\"\\\"\"") = .ok (.ok 1) := by rfl
    rw [checkedChunkLine_eq (by decide)] at hrun
    exact Except.ok.inj hrun
  have hparameters : validateTransferParameters (ascii ";q=\"\t\"") = .ok () := by
    have hturn : transferParameter (ascii ";q=\"\t\"") = some [] := by decide
    rw [validateTransferParameters_of_turn hturn, validateTransferParameters_nil]
  refine ⟨hline, ?_, hparameters, ?_⟩
  · exact ((controlFree_iff_escapesClean _).1 _ hline).mp (by decide +kernel)
  · exact ((controlFree_iff_escapesClean _).2 hparameters).mp (by decide +kernel)

/-- `1;a="\` and a zero byte and `"`: the scan refuses CR and LF after a backslash and nothing else. -/
theorem escaped_nul_accepted :
    ¬((∀ line n, parseChunkLine line = .ok n → ControlFree line) ∧
      ∀ input, validateTransferParameters input = .ok () → ControlFree input) := by
  rintro ⟨hline, -⟩
  have hparse : parseChunkLine (ascii "1;a=\"\\" ++ [0, DQUOTE]) = .ok 1 := by
    have hrun : checkedChunkLine 16 (ascii "1;a=\"\\" ++ [0, DQUOTE]) = .ok (.ok 1) := by rfl
    rw [checkedChunkLine_eq (by decide)] at hrun
    exact Except.ok.inj hrun
  exact absurd (hline _ _ hparse 0 (by decide)) (by decide)

end Vakya
