import Vakya.Members

/-!
# The cuts of a list-valued field

`for_each_list_member` finds the members of a value in one pass with three
flags. Here the pass keeps the positions of the source and the calls it makes,
and is compared with the value cut at every comma outside quoted strings.
-/

namespace Vakya

inductive Quoting where
  | outside
  | inside
  | escaped
  deriving DecidableEq

namespace Quoting

/-- A quote opens or closes a string, a backslash inside one escapes the next byte. -/
def next : Quoting → UInt8 → Quoting
  | outside, b => if b == DQUOTE then inside else outside
  | inside, b => if b == BACKSLASH then escaped else if b == DQUOTE then outside else inside
  | escaped, _ => inside

def isQuoted : Quoting → Bool
  | outside => false
  | inside => true
  | escaped => true

def isEscaped : Quoting → Bool
  | outside => false
  | inside => false
  | escaped => true

end Quoting

def quoting (text : Bytes) : Quoting := text.foldl Quoting.next .outside

def isCut (input : Bytes) (i : ℕ) : Bool :=
  input[i]? == some COMMA && quoting (input.take i) == .outside

def cuts (input : Bytes) : List ℕ := (List.range input.length).filter (isCut input)

/-- What stands between the positions `at_`, from `start` on. -/
def piecesBetween (input : Bytes) (start : ℕ) : List ℕ → List Bytes
  | [] => [input.drop start]
  | c :: cs => (input.take c).drop start :: piecesBetween input (c + 1) cs

def pieces (input : Bytes) : List Bytes := piecesBetween input 0 (cuts input)

/-- The slices that the handler was called with, in order, and what the caller got. -/
structure MemberRun (A : Type) where
  calls : List Bytes
  result : Except HeadError A

namespace MemberRun

variable {A : Type}

def rejected (e : HeadError) : MemberRun A := ⟨[], .error e⟩

/-- The handler is called with a slice; the pass goes on only if it succeeds. -/
def call (handle : A → Bytes → Except HeadError A) (state : A) (member : Bytes)
    (go : A → MemberRun A) : MemberRun A :=
  match handle state member with
  | .error e => ⟨[member], .error e⟩
  | .ok state => ⟨member :: (go state).calls, (go state).result⟩

end MemberRun

section Pass

variable {A : Type} (error : HeadError) (handle : A → Bytes → Except HeadError A)

/-- The loop of `for_each_list_member` with the positions it keeps; the bytes from `index` on are
still to be read. -/
def scanSlices (input : Bytes) (start index : ℕ) (quoted escaped : Bool) (state : A) :
    Bytes → MemberRun A
  | [] =>
    if quoted || escaped || start == input.length then .rejected error
    else .call handle state (input.drop start) fun state => ⟨[], .ok state⟩
  | b :: rest =>
    if escaped then scanSlices input start (index + 1) quoted false state rest
    else if quoted && b == BACKSLASH then scanSlices input start (index + 1) quoted true state rest
    else if b == DQUOTE then scanSlices input start (index + 1) (!quoted) false state rest
    else if b == COMMA && !quoted then
      if index == start then .rejected error
      else .call handle state ((input.take index).drop start) fun state =>
        scanSlices input (index + 1) (index + 1) quoted false state rest
    else scanSlices input start (index + 1) quoted false state rest

/-- `for_each_list_member` with the calls of its handler. -/
def forEachListMemberRun (input : Bytes) (state : A) : MemberRun A :=
  if input.isEmpty then .rejected error else scanSlices error handle input 0 0 false false state input

def handPieces (isOpen : Bool) (state : A) : List Bytes → MemberRun A
  | [] => ⟨[], .ok state⟩
  | [last] =>
    if isOpen || last.isEmpty then .rejected error
    else .call handle state last fun state => ⟨[], .ok state⟩
  | piece :: piece' :: rest =>
    if piece.isEmpty then .rejected error
    else .call handle state piece fun state => handPieces isOpen state (piece' :: rest)

end Pass

/-- The pieces of what is still to be read; `piece` was read since the last cut. -/
def piecesFrom (q : Quoting) (piece : Bytes) : Bytes → List Bytes
  | [] => [piece]
  | b :: rest =>
    if q == .outside && b == COMMA then piece :: piecesFrom .outside [] rest
    else piecesFrom (q.next b) (piece ++ [b]) rest

theorem piecesFrom_ne_nil (q : Quoting) (piece rest : Bytes) : piecesFrom q piece rest ≠ [] := by
  induction rest generalizing q piece with
  | nil => simp [piecesFrom]
  | cons b rest ih =>
    unfold piecesFrom
    split_ifs
    · simp
    · exact ih _ _

@[simp] theorem quoting_append_singleton (text : Bytes) (b : UInt8) :
    quoting (text ++ [b]) = (quoting text).next b := by
  simp [quoting]

@[simp] theorem Quoting.next_comma : Quoting.outside.next COMMA = .outside := by decide

theorem isCut_append (pre rest : Bytes) (b : UInt8) :
    isCut (pre ++ b :: rest) pre.length = (quoting pre == .outside && b == COMMA) := by
  simp [isCut, Bool.and_comm]

theorem mem_cuts {input : Bytes} {i : ℕ} :
    i ∈ cuts input ↔ input[i]? = some COMMA ∧ quoting (input.take i) = .outside := by
  simp only [cuts, isCut, List.mem_filter, List.mem_range, Bool.and_eq_true, beq_iff_eq]
  constructor
  · exact And.right
  · intro h
    exact ⟨(List.getElem?_eq_some_iff.mp h.1).1, h⟩

theorem drop_length_succ (pre : Bytes) (b : UInt8) : (pre ++ [b]).drop (pre.length + 1) = [] := by
  simp

theorem piecesBetween_eq (pre rest : Bytes) {start : ℕ} (hstart : start ≤ pre.length) :
    piecesBetween (pre ++ rest) start
        ((List.range' pre.length rest.length).filter (isCut (pre ++ rest))) =
      piecesFrom (quoting pre) (pre.drop start) rest := by
  induction rest generalizing pre start with
  | nil => simp [piecesBetween, piecesFrom]
  | cons b rest ih =>
    have hlen : (pre ++ [b]).length = pre.length + 1 := by simp
    have happ : pre ++ b :: rest = pre ++ [b] ++ rest := by simp
    rw [List.length_cons, List.range'_succ, List.filter_cons, isCut_append, piecesFrom]
    by_cases hcut : (quoting pre == .outside && b == COMMA) = true
    · rw [if_pos hcut, if_pos hcut, piecesBetween, List.take_left]
      simp only [Bool.and_eq_true, beq_iff_eq] at hcut
      obtain ⟨hq, rfl⟩ := hcut
      have h := ih (pre ++ [COMMA]) (le_of_eq hlen.symm)
      rw [← happ, hlen, quoting_append_singleton, hq, Quoting.next_comma, drop_length_succ] at h
      rw [h]
    · rw [if_neg hcut, if_neg hcut]
      have h := ih (pre ++ [b]) (show start ≤ (pre ++ [b]).length by omega)
      rw [← happ, hlen, quoting_append_singleton, List.drop_append_of_le_length hstart] at h
      exact h

theorem pieces_eq (input : Bytes) : pieces input = piecesFrom .outside [] input := by
  have h := piecesBetween_eq [] input (le_refl 0)
  rw [List.nil_append, List.length_nil, ← List.range_eq_range'] at h
  exact h

theorem length_beq_eq_isEmpty {pre : Bytes} {start : ℕ} (h : start ≤ pre.length) :
    (pre.length == start) = (pre.drop start).isEmpty := by
  rw [Bool.eq_iff_iff, beq_iff_eq, List.isEmpty_iff, List.drop_eq_nil_iff]
  omega

theorem intercalate_cons {sep piece : Bytes} {ps : List Bytes} (h : ps ≠ []) :
    sep.intercalate (piece :: ps) = piece ++ sep ++ sep.intercalate ps := by
  cases ps with
  | nil => exact absurd rfl h
  | cons p ps => simp [List.intercalate]

theorem intercalate_piecesFrom (q : Quoting) (piece rest : Bytes) :
    [COMMA].intercalate (piecesFrom q piece rest) = piece ++ rest := by
  induction rest generalizing q piece with
  | nil => simp [piecesFrom, List.intercalate]
  | cons b rest ih =>
    unfold piecesFrom
    split_ifs with h
    · have hb : b = COMMA := by simpa using (Bool.and_eq_true_iff.mp h).2
      rw [intercalate_cons (piecesFrom_ne_nil _ _ _), ih, hb]
      simp
    · rw [ih]
      simp

section Pass

variable {A : Type} {error : HeadError} {handle : A → Bytes → Except HeadError A}

theorem handPieces_cons {isOpen : Bool} {state : A} {piece : Bytes} {ps : List Bytes}
    (h : ps ≠ []) : handPieces error handle isOpen state (piece :: ps) =
      if piece.isEmpty then .rejected error
      else .call handle state piece fun state => handPieces error handle isOpen state ps := by
  cases ps with
  | nil => exact absurd rfl h
  | cons p ps => rfl

theorem scanSlices_cons {input rest : Bytes} {start index : ℕ} {q : Quoting} {b : UInt8} {s : A}
    (h : ¬(q == .outside && b == COMMA) = true) :
    scanSlices error handle input start index q.isQuoted q.isEscaped s (b :: rest) =
      scanSlices error handle input start (index + 1) (q.next b).isQuoted (q.next b).isEscaped s
        rest := by
  cases q with
  | outside =>
    have hb : (b == COMMA) = false := by simpa using h
    by_cases hquote : (b == DQUOTE) = true
    · simp [scanSlices, Quoting.next, Quoting.isQuoted, Quoting.isEscaped, hquote]
    · simp [scanSlices, Quoting.next, Quoting.isQuoted, Quoting.isEscaped, hquote, hb]
  | inside =>
    by_cases hback : (b == BACKSLASH) = true
    · simp [scanSlices, Quoting.next, Quoting.isQuoted, Quoting.isEscaped, hback]
    by_cases hquote : (b == DQUOTE) = true
    · simp [scanSlices, Quoting.next, Quoting.isQuoted, Quoting.isEscaped, hback, hquote]
    · simp [scanSlices, Quoting.next, Quoting.isQuoted, Quoting.isEscaped, hback, hquote]
  | escaped => simp [scanSlices, Quoting.next, Quoting.isQuoted, Quoting.isEscaped]

theorem scanSlices_cut {input rest : Bytes} {start index : ℕ} {s : A} :
    scanSlices error handle input start index Quoting.outside.isQuoted Quoting.outside.isEscaped s
        (COMMA :: rest) =
      if index == start then .rejected error
      else .call handle s ((input.take index).drop start) fun s =>
        scanSlices error handle input (index + 1) (index + 1) Quoting.outside.isQuoted
          Quoting.outside.isEscaped s rest := by
  rfl

theorem scanSlices_eq (pre rest : Bytes) {start : ℕ} (hstart : start ≤ pre.length) (q : Quoting)
    (s : A) :
    scanSlices error handle (pre ++ rest) start pre.length q.isQuoted q.isEscaped s rest =
      handPieces error handle (rest.foldl Quoting.next q != .outside) s
        (piecesFrom q (pre.drop start) rest) := by
  induction rest generalizing pre start q s with
  | nil =>
    have hempty := BEq.comm.trans (length_beq_eq_isEmpty hstart)
    have hopen : (q.isQuoted || q.isEscaped) = (q != .outside) := by
      cases q <;> rfl
    simp only [scanSlices, piecesFrom, handPieces, List.append_nil, List.foldl_nil, hempty, hopen]
  | cons b rest ih =>
    have hlen : (pre ++ [b]).length = pre.length + 1 := by simp
    have happ : pre ++ b :: rest = pre ++ [b] ++ rest := by simp
    rw [List.foldl_cons, piecesFrom]
    by_cases hcut : (q == .outside && b == COMMA) = true
    · rw [if_pos hcut]
      simp only [Bool.and_eq_true, beq_iff_eq] at hcut
      obtain ⟨rfl, rfl⟩ := hcut
      rw [scanSlices_cut, handPieces_cons (piecesFrom_ne_nil _ _ _),
        length_beq_eq_isEmpty hstart, List.take_left,
        Quoting.next_comma]
      refine ite_congr rfl (fun _ => rfl) fun _ => ?_
      congr 1
      funext s
      have h := ih (pre ++ [COMMA]) (le_of_eq hlen.symm) .outside s
      rwa [← happ, hlen, drop_length_succ] at h
    · rw [if_neg hcut, scanSlices_cons hcut]
      have h := ih (pre ++ [b]) (show start ≤ (pre ++ [b]).length by omega) (q.next b) s
      rwa [← happ, hlen, List.drop_append_of_le_length hstart] at h

/-- The pass is the pieces of the value, handed over one by one. -/
theorem forEachListMemberRun_eq (input : Bytes) (s : A) :
    forEachListMemberRun error handle input s =
      handPieces error handle (quoting input != .outside) s (pieces input) := by
  unfold forEachListMemberRun
  split_ifs with h
  · obtain rfl : input = [] := by simpa using h
    rfl
  · rw [pieces_eq]
    exact scanSlices_eq [] input (le_refl 0) .outside s

/-- The calls apart, the pass is the scan of the members. -/
theorem scanSlices_result (pre rest : Bytes) {start : ℕ} (hstart : start ≤ pre.length)
    (quoted escaped : Bool) (s : A) :
    (scanSlices error handle (pre ++ rest) start pre.length quoted escaped s rest).result =
      scanMembers error handle quoted escaped (pre.drop start) s rest := by
  induction rest generalizing pre start quoted escaped s with
  | nil =>
    have hempty := BEq.comm.trans (length_beq_eq_isEmpty hstart)
    simp only [scanSlices, scanMembers, hempty, List.append_nil]
    split_ifs
    · rfl
    · unfold MemberRun.call
      cases handle s (pre.drop start) <;> rfl
  | cons b rest ih =>
    have hlen : (pre ++ [b]).length = pre.length + 1 := by simp
    have happ : pre ++ b :: rest = pre ++ [b] ++ rest := by simp
    have hdrop : (pre ++ [b]).drop start = pre.drop start ++ [b] := List.drop_append_of_le_length hstart
    have step (quoted escaped : Bool) :
        (scanSlices error handle (pre ++ b :: rest) start (pre.length + 1) quoted escaped s
          rest).result = scanMembers error handle quoted escaped (pre.drop start ++ [b]) s rest := by
      have h := ih (pre ++ [b]) (show start ≤ (pre ++ [b]).length by omega) quoted escaped s
      rwa [← happ, hlen, hdrop] at h
    unfold scanSlices scanMembers
    rw [length_beq_eq_isEmpty hstart, List.take_left]
    split_ifs
    · exact step _ _
    · exact step _ _
    · exact step _ _
    · rfl
    · unfold MemberRun.call
      cases handle s (pre.drop start) with
      | error e => rfl
      | ok s =>
        have h := ih (pre ++ [b]) (le_of_eq hlen.symm) quoted false s
        rw [← happ, hlen, drop_length_succ] at h
        exact h
    · exact step _ _

theorem forEachListMemberRun_result (input : Bytes) (s : A) :
    (forEachListMemberRun error handle input s).result =
      forEachListMember error handle input s := by
  unfold forEachListMemberRun forEachListMember
  split_ifs
  · rfl
  · exact scanSlices_result [] input (le_refl 0) false false s

theorem handPieces_ok {isOpen : Bool} {s s' : A} {ps : List Bytes} (hne : ps ≠ [])
    (h : (handPieces error handle isOpen s ps).result = .ok s') :
    (handPieces error handle isOpen s ps).calls = ps ∧ [] ∉ ps ∧ isOpen = false ∧
      ps.foldlM handle s = .ok s' := by
  induction ps generalizing s with
  | nil => exact absurd rfl hne
  | cons piece ps ih =>
    by_cases hps : ps = []
    · subst hps
      simp only [handPieces] at h ⊢
      split_ifs at h ⊢ with hc
      · cases h
      · simp only [Bool.or_eq_true, not_or, Bool.not_eq_true, List.isEmpty_eq_false_iff] at hc
        unfold MemberRun.call at h ⊢
        cases hh : handle s piece with
        | error e => simp [hh] at h
        | ok a =>
          simp only [hh] at h
          exact ⟨rfl, by simpa using hc.2, hc.1, foldlM_cons_eq_ok.mpr ⟨a, hh, h⟩⟩
    · rw [handPieces_cons hps] at h ⊢
      split_ifs at h ⊢ with hempty
      · cases h
      · unfold MemberRun.call at h ⊢
        cases hh : handle s piece with
        | error e => simp [hh] at h
        | ok a =>
          simp only [hh] at h ⊢
          obtain ⟨hcalls, hnil, hopen, hfold⟩ := ih hps h
          have hpiece : piece ≠ [] := by simpa using hempty
          refine ⟨by rw [hcalls], ?_, hopen, foldlM_cons_eq_ok.mpr ⟨a, hh, hfold⟩⟩
          simp [hnil, hpiece.symm]

/-- How a pass ends early: the calls for the pieces before the failing one have succeeded, and the
failing one was handed over only if it is its handler that failed. -/
def StopsAt (error : HeadError) (handle : A → Bytes → Except HeadError A) (isOpen : Bool) (s : A)
    (ps : List Bytes) (calls : List Bytes) (e : HeadError) : Prop :=
  ∃ before piece after a, ps = before ++ piece :: after ∧ [] ∉ before ∧
    before.foldlM handle s = .ok a ∧
    ((calls = before ∧ e = error ∧ (piece = [] ∨ after = [] ∧ isOpen = true)) ∨
      (calls = before ++ [piece] ∧ piece ≠ [] ∧ handle a piece = .error e))

theorem StopsAt.cons {isOpen : Bool} {s a : A} {piece : Bytes} {ps calls : List Bytes}
    {e : HeadError} (hpiece : piece ≠ []) (hh : handle s piece = .ok a)
    (h : StopsAt error handle isOpen a ps calls e) :
    StopsAt error handle isOpen s (piece :: ps) (piece :: calls) e := by
  obtain ⟨before, p, after, a', rfl, hnil, hfold, hend⟩ := h
  refine ⟨piece :: before, p, after, a', rfl, by simp [hnil, hpiece.symm],
    foldlM_cons_eq_ok.mpr ⟨a, hh, hfold⟩, ?_⟩
  rcases hend with ⟨rfl, he⟩ | ⟨rfl, he⟩
  · exact .inl ⟨rfl, he⟩
  · exact .inr ⟨rfl, he⟩

theorem handPieces_error {isOpen : Bool} {s : A} {e : HeadError} {ps : List Bytes}
    (h : (handPieces error handle isOpen s ps).result = .error e) :
    StopsAt error handle isOpen s ps (handPieces error handle isOpen s ps).calls e := by
  induction ps generalizing s with
  | nil => cases h
  | cons piece ps ih =>
    have hhere (h' : handle s piece = .error e) (hpiece : piece ≠ []) :
        StopsAt error handle isOpen s (piece :: ps) [piece] e :=
      ⟨[], piece, ps, s, rfl, List.not_mem_nil, rfl, .inr ⟨rfl, hpiece, h'⟩⟩
    by_cases hps : ps = []
    · subst hps
      simp only [handPieces] at h ⊢
      split_ifs at h ⊢ with hc
      · obtain rfl : error = e := by simpa [MemberRun.rejected] using h
        refine ⟨[], piece, [], s, rfl, List.not_mem_nil, rfl, .inl ⟨rfl, rfl, ?_⟩⟩
        rcases Bool.or_eq_true_iff.mp hc with hopen | hempty
        · exact .inr ⟨rfl, hopen⟩
        · exact .inl (by simpa using hempty)
      · simp only [Bool.or_eq_true, not_or, Bool.not_eq_true, List.isEmpty_eq_false_iff] at hc
        unfold MemberRun.call at h ⊢
        cases hh : handle s piece with
        | error e' =>
          simp only [hh] at h ⊢
          obtain rfl : e' = e := by simpa using h
          exact hhere hh hc.2
        | ok a => simp [hh] at h
    · rw [handPieces_cons hps] at h ⊢
      split_ifs at h ⊢ with hempty
      · obtain rfl : error = e := by simpa [MemberRun.rejected] using h
        exact ⟨[], piece, ps, s, rfl, List.not_mem_nil, rfl,
          .inl ⟨rfl, rfl, .inl (by simpa using hempty)⟩⟩
      · have hpiece : piece ≠ [] := by simpa using hempty
        unfold MemberRun.call at h ⊢
        cases hh : handle s piece with
        | error e' =>
          simp only [hh] at h ⊢
          obtain rfl : e' = e := by simpa using h
          exact hhere hh hpiece
        | ok a =>
          simp only [hh] at h ⊢
          exact (ih h).cons hpiece hh

theorem StopsAt.cause {isOpen : Bool} {s : A} {ps calls : List Bytes} {e : HeadError}
    (h : StopsAt error handle isOpen s ps calls e) (hok : ∀ a m, ∃ a', handle a m = .ok a') :
    [] ∈ ps ∨ isOpen = true := by
  obtain ⟨before, piece, after, a, rfl, -, -, ⟨-, -, rfl | hopen⟩ | ⟨-, -, he⟩⟩ := h
  · exact .inl (by simp)
  · exact .inr hopen.2
  · obtain ⟨a', ha'⟩ := hok a piece
    rw [ha'] at he
    cases he

theorem pieces_ne_nil (input : Bytes) : pieces input ≠ [] := by
  rw [pieces_eq]
  exact piecesFrom_ne_nil _ _ _

theorem intercalate_pieces (input : Bytes) : [COMMA].intercalate (pieces input) = input := by
  rw [pieces_eq, intercalate_piecesFrom, List.nil_append]

end Pass

/-- Splitting a value into its members loses nothing and respects quoted strings. The cuts are the
commas outside quoted strings; a pass that succeeds has called its handler on all that is between
them, in order; a pass whose handler always succeeds fails exactly on an empty member or an open
quoted string; and a pass that fails has called its handler on nothing after the failing member. -/
theorem forEachListMember_lossless {A : Type} (error : HeadError)
    (handle : A → Bytes → Except HeadError A) (input : Bytes) (s : A) :
    let run := forEachListMemberRun error handle input s
    run.result = forEachListMember error handle input s ∧
    (∀ i, i ∈ cuts input ↔ input[i]? = some COMMA ∧ quoting (input.take i) = .outside) ∧
    (∀ s', run.result = .ok s' → run.calls = pieces input ∧ [] ∉ run.calls ∧
      [COMMA].intercalate run.calls = input ∧ run.calls.foldlM handle s = .ok s') ∧
    ((∀ a m, ∃ a', handle a m = .ok a') → ((∃ e, run.result = .error e) ↔
      input = [] ∨ [] ∈ pieces input ∨ quoting input ≠ .outside)) ∧
    ∀ e, run.result = .error e →
      StopsAt error handle (quoting input != .outside) s (pieces input) run.calls e := by
  intro run
  have hrun : run = handPieces error handle (quoting input != .outside) s (pieces input) :=
    forEachListMemberRun_eq input s
  have hstop (e : HeadError) (h : run.result = .error e) :
      StopsAt error handle (quoting input != .outside) s (pieces input) run.calls e := by
    rw [hrun] at h ⊢
    exact handPieces_error h
  have hsucc (s' : A) (h : run.result = .ok s') := handPieces_ok (pieces_ne_nil input) (hrun ▸ h)
  refine ⟨forEachListMemberRun_result input s, fun i => mem_cuts, ?_, ?_, hstop⟩
  · intro s' h
    obtain ⟨hcalls, hnil, -, hfold⟩ := hsucc s' h
    rw [hrun, hcalls]
    exact ⟨rfl, hnil, intercalate_pieces input, hfold⟩
  · intro hok
    constructor
    · rintro ⟨e, he⟩
      have hcause := (hstop e he).cause hok
      simp only [bne_iff_ne] at hcause
      exact .inr hcause
    · intro hbad
      cases hres : run.result with
      | error e => exact ⟨e, rfl⟩
      | ok s' =>
        obtain ⟨-, hnil, hopen, -⟩ := hsucc s' hres
        rcases hbad with rfl | hempty | hquote
        · exact absurd (by decide : [] ∈ pieces []) hnil
        · exact absurd hempty hnil
        · simp [hquote] at hopen

end Vakya
