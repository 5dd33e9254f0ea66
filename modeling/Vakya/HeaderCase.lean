import Vakya.Encode
import Vakya.HeadScan
import Vakya.Reference

/-!
# Header lines and their spellings

`write_headers` is a sequence of pushes that depends on the map, the spellings and the title-case
setting alone. The lines can be read back into the same map. A spelling is used for the value at its
position; where a name has more values than spellings, the setting decides.
-/

namespace Vakya

def Crates.NamesFold (x : Crates) : Prop :=
  ∀ (text : Bytes) (n : HeaderName), x.headerName text = some n → lowercase text = n.text

/-- A line of the output with the key it belongs to. -/
structure HeaderLine where
  name : HeaderName
  spelling : Bytes
  value : HeaderValue

namespace HeaderLine

def pieces (l : HeaderLine) : List Bytes := [l.spelling, [COLON, SP], l.value.bytes, CRLF]

def bytes (l : HeaderLine) : Bytes := l.pieces.flatten

def Folds (l : HeaderLine) : Prop := lowercase l.spelling = l.name.text

end HeaderLine

def spelledName (name : HeaderName) (original : Option Bytes) (title : Bool) : Bytes :=
  original.getD (if title then titleCase true name.text else name.text)

def valueLines (name : HeaderName) (title : Bool) : List Bytes → List HeaderValue → List HeaderLine
  | _, [] => []
  | spellings, value :: values =>
    ⟨name, spelledName name spellings.head? title, value⟩ :: valueLines name title spellings.tail values

def headerLines (headers : Headers) (original : Option HeaderCaseMap) (title : Bool) : List HeaderLine :=
  match original with
  | some original => headers.keys.flatMap fun name => valueLines name title (original.getAll name) (headers.getAll name)
  | none => headers.iter.map fun e => ⟨e.1, spelledName e.1 none title, e.2⟩

namespace BoundedWriter

variable {x : Crates} {w w' : BoundedWriter}

/-- A writer within its limit, which is a `usize`. -/
structure Sound (w : BoundedWriter) : Prop where
  length_le : w.bytes.length ≤ w.limit
  limit_lt : w.limit < wordSize

theorem sound_new {limit : ℕ} (h : limit < wordSize) : (new limit).Sound := ⟨Nat.zero_le _, h⟩

def pushAll (x : Crates) (w : BoundedWriter) (pieces : List Bytes) : Except EncodeError BoundedWriter :=
  pieces.foldlM (fun w piece => w.push x piece) w

theorem pushAll_append (pieces pieces' : List Bytes) :
    w.pushAll x (pieces ++ pieces') = (w.pushAll x pieces >>= fun w => w.pushAll x pieces') :=
  List.foldlM_append ..

theorem push_cases (h : w.limit < wordSize) (value : Bytes) :
    (w.push x value = .ok { w with bytes := w.bytes ++ value } ∧ w.bytes.length + value.length ≤ w.limit) ∨
      (w.push x value = .error (.limit w.kind) ∧ w.limit < w.bytes.length + value.length) ∨
      (w.push x value = .error .allocation ∧ x.reserve w.bytes.length value.length = false) := by
  unfold push extend checkedAdd
  by_cases hword : w.bytes.length + value.length < wordSize
  · rw [if_pos hword]
    dsimp only
    split_ifs with hlong hreserve
    · exact .inr (.inl ⟨rfl, hlong⟩)
    · exact .inl ⟨rfl, Nat.not_lt.mp hlong⟩
    · exact .inr (.inr ⟨rfl, by simpa using hreserve⟩)
  · rw [if_neg hword]
    exact .inr (.inl ⟨rfl, by omega⟩)

/-- All pushes together: the writer stays within its limit, and it fails only where the whole output
would not fit or memory is not to be had. -/
theorem pushAll_cases (h : w.Sound) (pieces : List Bytes) :
    (w.pushAll x pieces = .ok { w with bytes := w.bytes ++ pieces.flatten } ∧
        w.bytes.length + pieces.flatten.length ≤ w.limit) ∨
      (w.pushAll x pieces = .error (.limit w.kind) ∧ w.limit < w.bytes.length + pieces.flatten.length) ∨
      (w.pushAll x pieces = .error .allocation ∧ ∃ used more, x.reserve used more = false) := by
  induction pieces generalizing w with
  | nil => exact .inl ⟨by simp [pushAll, pure, Except.pure], by simpa using h.length_le⟩
  | cons piece pieces ih =>
    have hstep : w.pushAll x (piece :: pieces) = (w.push x piece >>= fun w => w.pushAll x pieces) :=
      List.foldlM_cons ..
    rw [hstep, List.flatten_cons, List.length_append]
    rcases push_cases h.limit_lt piece with ⟨hpush, hfits⟩ | ⟨hpush, hlong⟩ | ⟨hpush, hreserve⟩
    · rw [hpush, ok_bind]
      have hnext : Sound { w with bytes := w.bytes ++ piece } := ⟨by simpa using hfits, h.limit_lt⟩
      have hrest := ih hnext
      simp only [List.length_append, List.append_assoc, Nat.add_assoc] at hrest
      exact hrest
    · refine .inr (.inl ⟨by rw [hpush]; rfl, by omega⟩)
    · exact .inr (.inr ⟨by rw [hpush]; rfl, _, _, hreserve⟩)

end BoundedWriter

section Lines

variable {x : Crates} {w : BoundedWriter}

theorem writeHeaderName_eq (name : HeaderName) (original : Option Bytes) (title : Bool) :
    writeHeaderName x w name original title = w.push x (spelledName name original title) := by
  cases original with
  | some original => rfl
  | none =>
    cases title with
    | false => rfl
    | true =>
      -- Title case keeps the length, which is all that the check reads.
      change w.extend x name.text.length (titleCase true name.text) =
        w.extend x (titleCase true name.text).length (titleCase true name.text)
      rw [length_titleCase]

theorem writeHeader_eq (name : HeaderName) (original : Option Bytes) (title : Bool) (value : HeaderValue) :
    writeHeader x w name original title value =
      w.pushAll x (HeaderLine.pieces ⟨name, spelledName name original title, value⟩) := by
  simp only [writeHeader, writeHeaderName_eq, BoundedWriter.pushAll, HeaderLine.pieces, List.foldlM_cons,
    List.foldlM_nil, bind_pure]

theorem writeValues_eq (name : HeaderName) (title : Bool) (spellings : List Bytes) (values : List HeaderValue) :
    writeValues x name title w spellings values =
      w.pushAll x ((valueLines name title spellings values).flatMap HeaderLine.pieces) := by
  induction values generalizing w spellings with
  | nil => rfl
  | cons value values ih =>
    rw [writeValues, writeHeader_eq, valueLines, List.flatMap_cons, BoundedWriter.pushAll_append]
    congr 1
    funext w'
    exact ih _

theorem foldlM_pushAll {A : Type} (write : BoundedWriter → A → Except EncodeError BoundedWriter)
    (lines : A → List HeaderLine) (h : ∀ w a, write w a = w.pushAll x ((lines a).flatMap HeaderLine.pieces))
    (items : List A) : items.foldlM write w = w.pushAll x ((items.flatMap lines).flatMap HeaderLine.pieces) := by
  induction items generalizing w with
  | nil => rfl
  | cons a items ih =>
    rw [List.foldlM_cons, h, List.flatMap_cons, List.flatMap_append, BoundedWriter.pushAll_append]
    congr 1
    funext w'
    exact ih

theorem writeHeaders_eq (headers : Headers) (original : Option HeaderCaseMap) (title : Bool) :
    writeHeaders x w headers original title =
      w.pushAll x ((headerLines headers original title).flatMap HeaderLine.pieces) := by
  cases original with
  | some original =>
    exact foldlM_pushAll _ (fun name => valueLines name title (original.getAll name) (headers.getAll name))
      (fun w name => writeValues_eq name title _ _) headers.keys
  | none =>
    have hlines : headerLines headers none title =
        headers.iter.flatMap fun e => [⟨e.1, spelledName e.1 none title, e.2⟩] := by
      rw [headerLines, ← List.flatMap_singleton' (headers.iter.map _), List.flatMap_map]
    rw [hlines]
    refine foldlM_pushAll _ _ ?_ headers.iter
    intro w e
    rw [writeHeader_eq, List.flatMap_singleton]

theorem flatten_pieces (lines : List HeaderLine) :
    (lines.flatMap HeaderLine.pieces).flatten = lines.flatMap HeaderLine.bytes := by
  induction lines with
  | nil => rfl
  | cons l lines ih =>
    rw [List.flatMap_cons, List.flatten_append, ih, List.flatMap_cons]
    rfl

end Lines

theorem valueLines_pairs (name : HeaderName) (title : Bool) (spellings : List Bytes) (values : List HeaderValue) :
    (valueLines name title spellings values).map (fun l => (l.name, l.value)) = values.map (name, ·) := by
  induction values generalizing spellings with
  | nil => rfl
  | cons value values ih => rw [valueLines, List.map_cons, List.map_cons, ih]

theorem headerLines_pairs (headers : Headers) (original : Option HeaderCaseMap) (title : Bool) :
    (headerLines headers original title).map (fun l => (l.name, l.value)) = headers.iter := by
  cases original with
  | some original =>
    simp only [headerLines, List.map_flatMap, valueLines_pairs]
    exact headers.flatMap_getAll
  | none => simp only [headerLines, List.map_map, Function.comp_def, List.map_id']

theorem folds_spelledName {name : HeaderName} {original : Option Bytes} (title : Bool)
    (h : ∀ text ∈ original, lowercase text = name.text) : lowercase (spelledName name original title) = name.text := by
  cases original with
  | some text => exact h text rfl
  | none =>
    cases title with
    | false => exact name.lower
    | true => exact (lowercase_titleCase _ _).trans name.lower

theorem folds_valueLines {name : HeaderName} {title : Bool} {spellings : List Bytes} {values : List HeaderValue}
    (h : ∀ text ∈ spellings, lowercase text = name.text) :
    ∀ l ∈ valueLines name title spellings values, l.name = name ∧ l.Folds := by
  induction values generalizing spellings with
  | nil =>
    intro l hl
    cases hl
  | cons value values ih =>
    intro l hl
    rcases List.mem_cons.mp hl with rfl | hl
    · exact ⟨rfl, folds_spelledName title fun text htext => h text (List.mem_of_mem_head? htext)⟩
    · exact ih (fun text htext => h text (List.mem_of_mem_tail htext)) l hl

theorem folds_headerLines (headers : Headers) (original : Option HeaderCaseMap) (title : Bool) :
    ∀ l ∈ headerLines headers original title, l.Folds := by
  cases original with
  | some original =>
    intro l hl
    obtain ⟨name, -, hl⟩ := List.mem_flatMap.mp hl
    exact (folds_valueLines (original.folds name) l hl).2
  | none =>
    intro l hl
    obtain ⟨e, -, rfl⟩ := List.mem_map.mp hl
    have hnone : ∀ text ∈ (none : Option Bytes), lowercase text = e.1.text := nofun
    exact folds_spelledName title hnone

/-- `name: value` CRLF at the front of the input, and what follows. -/
def readLine (input : Bytes) : Option ((Bytes × Bytes) × Bytes) :=
  match input.dropWhile (· != COLON) with
  | _ :: b :: rest =>
    if b = SP then
      match rest.dropWhile (· != CR) with
      | _ :: c :: after =>
        if c = LF then some ((input.takeWhile (· != COLON), rest.takeWhile (· != CR)), after) else none
      | _ => none
    else none
  | _ => none

def readLines : ℕ → Bytes → Option (List (Bytes × Bytes))
  | _, [] => some []
  | 0, _ :: _ => none
  | fuel + 1, input =>
    match readLine input with
    | none => none
    | some (line, rest) => (readLines fuel rest).map (line :: ·)

def readHeaders (input : Bytes) : Option Headers :=
  (readLines input.length input).bind fun lines =>
    (lines.mapM fun line =>
      (Reference.headerName line.1).bind fun name => (Reference.headerValue line.2).map (name, ·)).map HeaderMap.ofList

theorem span_until {b : UInt8} {text : Bytes} (h : ∀ c ∈ text, c ≠ b) (rest : Bytes) :
    (text ++ b :: rest).takeWhile (· != b) = text ∧ (text ++ b :: rest).dropWhile (· != b) = b :: rest := by
  have hall : ∀ c ∈ text, (c != b) = true := fun c hc => bne_iff_ne.mpr (h c hc)
  rw [List.takeWhile_append_of_pos hall, List.dropWhile_append_of_pos hall]
  simp

theorem readLine_bytes {l : HeaderLine} (h : l.Folds) (rest : Bytes) :
    readLine (l.bytes ++ rest) = some ((l.spelling, l.value.bytes), rest) := by
  have htoken : isToken l.spelling = true := by
    apply isToken_of_lowercase
    rw [show lowercase l.spelling = l.name.text from h]
    exact l.name.token
  -- no token holds a colon and no value a CR, so both splits are where the writer put them
  have hname : ∀ c ∈ l.spelling, c ≠ COLON := by
    simp only [isToken, Bool.and_eq_true] at htoken
    rintro c hc rfl
    exact absurd (List.all_eq_true.mp htoken.2 _ hc) (by decide)
  have hvalue : ∀ c ∈ l.value.bytes, c ≠ CR := by
    rintro c hc rfl
    exact absurd (List.all_eq_true.mp l.value.visible _ hc) (by decide)
  have hbytes : l.bytes ++ rest = l.spelling ++ COLON :: SP :: (l.value.bytes ++ CR :: LF :: rest) := by
    simp [HeaderLine.bytes, HeaderLine.pieces]
  obtain ⟨htake, hdrop⟩ := span_until hname (SP :: (l.value.bytes ++ CR :: LF :: rest))
  obtain ⟨htake', hdrop'⟩ := span_until hvalue (LF :: rest)
  rw [hbytes]
  simp only [readLine, htake, hdrop, if_true, htake', hdrop']

theorem readLines_bytes {lines : List HeaderLine} (h : ∀ l ∈ lines, l.Folds) {fuel : ℕ}
    (hfuel : lines.length ≤ fuel) :
    readLines fuel (lines.flatMap HeaderLine.bytes) = some (lines.map fun l => (l.spelling, l.value.bytes)) := by
  induction lines generalizing fuel with
  | nil =>
    cases fuel with
    | zero => rfl
    | succ fuel => rfl
  | cons l lines ih =>
    -- the fuel is spent on lines, not on bytes
    obtain ⟨fuel, rfl⟩ : ∃ k, fuel = k + 1 := ⟨fuel - 1, by rw [List.length_cons] at hfuel; omega⟩
    rw [List.length_cons] at hfuel
    have hline := readLine_bytes (h l (by simp)) (lines.flatMap HeaderLine.bytes)
    have hrest := ih (fun l' hl' => h l' (List.mem_cons_of_mem _ hl')) (by omega : lines.length ≤ fuel)
    rw [List.flatMap_cons]
    cases hcons : l.bytes ++ lines.flatMap HeaderLine.bytes with
    | nil =>
      rw [hcons] at hline
      cases hline
    | cons b tail =>
      rw [hcons] at hline
      simp only [readLines, hline, hrest, Option.map_some, List.map_cons]

theorem length_lines_le (lines : List HeaderLine) : lines.length ≤ (lines.flatMap HeaderLine.bytes).length := by
  induction lines with
  | nil => exact le_rfl
  | cons l lines ih =>
    rw [List.flatMap_cons, List.length_append, List.length_cons]
    have hpos : 0 < l.bytes.length := by
      simp only [HeaderLine.bytes, HeaderLine.pieces, List.flatten_cons, List.length_append, List.length_cons]
      omega
    omega

theorem mapM_lines {lines : List HeaderLine} (h : ∀ l ∈ lines, l.Folds) :
    ((lines.map fun l => (l.spelling, l.value.bytes)).mapM fun line : Bytes × Bytes =>
      (Reference.headerName line.1).bind fun name => (Reference.headerValue line.2).map (name, ·)) =
      some (lines.map fun l => (l.name, l.value)) := by
  induction lines with
  | nil => rfl
  | cons l lines ih =>
    have hname : Reference.headerName l.spelling = some l.name := Reference.foldsNames l.name l.spelling (h l (by simp))
    have hvalue : Reference.headerValue l.value.bytes = some l.value := Reference.keepsValues l.value
    rw [List.map_cons, List.mapM_cons, hname, hvalue]
    simp only [Option.bind_some, Option.map_some, Option.bind_eq_bind,
      ih (fun l' hl' => h l' (List.mem_cons_of_mem _ hl')), List.map_cons, Option.pure_def]

/-- The lines make the map they were written from. -/
theorem readHeaders_headerLines (headers : Headers) (original : Option HeaderCaseMap) (title : Bool) :
    readHeaders ((headerLines headers original title).flatMap HeaderLine.bytes) = some headers := by
  have hfolds := folds_headerLines headers original title
  simp only [readHeaders, readLines_bytes hfolds (length_lines_le _), Option.bind_some, mapM_lines hfolds,
    Option.map_some, headerLines_pairs, HeaderMap.ofList_iter]

def fieldsOf (x : Crates) (fields : List RawHeader) (name : HeaderName) : List RawHeader :=
  fields.filter fun f => x.headerName f.name = some name

section SameHead

variable {x : Crates}

/-- Under each name the two maps hold as many entries, and the spellings are those of its fields. -/
structure SameHead (x : Crates) (fields : List RawHeader) (headers : Headers) (original : HeaderCaseMap) : Prop where
  spellings : ∀ name, original.getAll name = (fieldsOf x fields name).map RawHeader.name
  lengths : ∀ name, (headers.getAll name).length = (original.getAll name).length

theorem SameHead.append (hfold : x.NamesFold) {fields : List RawHeader} {headers : Headers} {original : HeaderCaseMap}
    (h : SameHead x fields headers original) {field : RawHeader} {state : Headers × Option HeaderCaseMap}
    (hstep : sharedHeader x (headers, some original) field = .ok state) :
    ∃ headers' original', state = (headers', some original') ∧ SameHead x (fields ++ [field]) headers' original' := by
  simp only [sharedHeader] at hstep
  split at hstep
  · rename_i name value hname hvalue
    have hlower := hfold field.name name hname
    simp only [Option.map_some, dif_pos hlower, Except.ok.injEq] at hstep
    subst hstep
    refine ⟨_, _, rfl, ?_, ?_⟩
    · intro n
      rw [fieldsOf, List.filter_append, List.map_append]
      by_cases hn : n = name
      · subst hn
        rw [HeaderCaseMap.getAll, HeaderCaseMap.append, HeaderMap.getAll_append_self]
        have hself : [field].filter (fun f => x.headerName f.name = some n) = [field] := by simp [hname]
        rw [hself]
        exact congrArg (· ++ [field.name]) (h.spellings n)
      · rw [HeaderCaseMap.getAll, HeaderCaseMap.append, HeaderMap.getAll_append_ne _ hn]
        have hother : [field].filter (fun f => x.headerName f.name = some n) = [] := by
          simp [hname, Ne.symm hn]
        rw [hother, List.map_nil, List.append_nil]
        exact h.spellings n
    · intro n
      have hlen := h.lengths n
      simp only [HeaderCaseMap.getAll, HeaderCaseMap.append] at hlen ⊢
      by_cases hn : n = name
      · subst hn
        rw [HeaderMap.getAll_append_self, HeaderMap.getAll_append_self, List.length_append, List.length_append, hlen]
        rfl
      · rw [HeaderMap.getAll_append_ne _ hn, HeaderMap.getAll_append_ne _ hn, hlen]
  · cases hstep

theorem sameHead_fold (hfold : x.NamesFold) {seen fields : List RawHeader} {headers : Headers}
    {original : HeaderCaseMap} (h : SameHead x seen headers original) {state : Headers × Option HeaderCaseMap}
    (hrun : fields.foldlM (sharedHeader x) (headers, some original) = .ok state) :
    ∃ headers' original', state = (headers', some original') ∧ SameHead x (seen ++ fields) headers' original' := by
  induction fields generalizing seen headers original with
  | nil =>
    cases hrun
    exact ⟨headers, original, rfl, by simpa using h⟩
  | cons field fields ih =>
    rw [List.foldlM_cons] at hrun
    obtain ⟨next, hstep, hrun⟩ := bind_eq_ok hrun
    obtain ⟨headers', original', rfl, h'⟩ := h.append hfold hstep
    obtain ⟨headers'', original'', hstate, h''⟩ := ih h' hrun
    exact ⟨headers'', original'', hstate, by simpa using h''⟩

theorem sameHead_sharedHeaders (hfold : x.NamesFold) {fields : List RawHeader} {state : Headers × Option HeaderCaseMap}
    (h : sharedHeaders x fields true = .ok state) :
    ∃ headers original, state = (headers, some original) ∧ SameHead x fields headers original := by
  simp only [sharedHeaders, if_true] at h
  split_ifs at h
  have hempty : SameHead x [] .empty .empty := ⟨fun _ => rfl, fun _ => rfl⟩
  exact sameHead_fold hfold hempty h

theorem valueLines_spellings {name : HeaderName} {title : Bool} {spellings : List Bytes} {values : List HeaderValue}
    (h : values.length = spellings.length) :
    (valueLines name title spellings values).map HeaderLine.spelling = spellings := by
  induction values generalizing spellings with
  | nil => exact (List.eq_nil_of_length_eq_zero h.symm).symm
  | cons value values ih =>
    cases spellings with
    | nil => cases h
    | cons text spellings =>
      rw [valueLines, List.map_cons, List.tail_cons, ih (Nat.succ.inj h)]
      rfl

theorem filter_flatMap_names {names : List HeaderName} (hnodup : names.Nodup) (lines : HeaderName → List HeaderLine)
    (hname : ∀ name, ∀ l ∈ lines name, l.name = name) (name : HeaderName) :
    (names.flatMap lines).filter (fun l => l.name = name) = if name ∈ names then lines name else [] := by
  induction names with
  | nil => rfl
  | cons n names ih =>
    rw [List.nodup_cons] at hnodup
    rw [List.flatMap_cons, List.filter_append, ih hnodup.2]
    by_cases hn : n = name
    · subst hn
      have hall : (lines n).filter (fun l => l.name = n) = lines n := by
        rw [List.filter_eq_self]
        intro l hl
        simpa using hname n l hl
      rw [hall, if_neg hnodup.1, List.append_nil, if_pos (List.mem_cons_self ..)]
    · have hnone : (lines n).filter (fun l => l.name = name) = [] := by
        rw [List.filter_eq_nil_iff]
        intro l hl
        simpa [hname n l hl] using hn
      have hiff : name ∈ n :: names ↔ name ∈ names := by simp [Ne.symm hn]
      rw [hnone, List.nil_append]
      simp only [hiff]

/-- The spellings on the lines of a name are those its fields came with, in order. -/
theorem SameHead.spellings_written {fields : List RawHeader} {headers : Headers} {original : HeaderCaseMap}
    (h : SameHead x fields headers original) (title : Bool) (name : HeaderName) :
    ((headerLines headers (some original) title).filter (fun l => l.name = name)).map HeaderLine.spelling =
      (fieldsOf x fields name).map RawHeader.name := by
  have hlines := filter_flatMap_names headers.names_nodup
    (fun n => valueLines n title (original.getAll n) (headers.getAll n))
    (fun n l hl => (folds_valueLines (original.folds n) l hl).1) name
  rw [headerLines, HeaderMap.keys, hlines, ← h.spellings name]
  -- a name without entries has no spellings either
  by_cases hmem : name ∈ headers.entries.map Prod.fst
  · rw [if_pos hmem]
    exact valueLines_spellings (h.lengths name)
  · rw [if_neg hmem]
    have hnone : headers.getAll name = [] := by
      by_contra hne
      have hkey := (headers.containsKey_iff name).mpr hne
      exact hmem (by simpa [HeaderMap.containsKey, HeaderMap.keys] using hkey)
    have hlen := h.lengths name
    rw [hnone] at hlen
    rw [List.eq_nil_of_length_eq_zero hlen.symm]
    rfl

end SameHead

/-- For every map, spellings and setting: the lines written read back as the map, each name as its key
up to case; with map and spellings of one head, each name is spelled as it came. The writer stays
within its limit at every push, and without a failed reservation the limit error is returned
exactly if the whole output would exceed it. -/
theorem writeHeaders_faithful (x : Crates) (w : BoundedWriter) (hw : w.Sound) (headers : Headers)
    (original : Option HeaderCaseMap) (title : Bool) :
    let lines := headerLines headers original title
    let output := lines.flatMap HeaderLine.bytes
    lines.map (fun l => (l.name, l.value)) = headers.iter ∧ (∀ l ∈ lines, l.Folds) ∧
      readHeaders output = some headers ∧
      (x.NamesFold → ∀ fields spellings, original = some spellings →
        sharedHeaders x fields true = .ok (headers, some spellings) →
        ∀ name, (lines.filter (fun l => l.name = name)).map HeaderLine.spelling =
          (fieldsOf x fields name).map RawHeader.name) ∧
      (∀ w', writeHeaders x w headers original title = .ok w' →
        w' = { w with bytes := w.bytes ++ output } ∧ w.bytes.length + output.length ≤ w.limit) ∧
      (∀ e, writeHeaders x w headers original title = .error e →
        (e = .limit w.kind ∧ w.limit < w.bytes.length + output.length) ∨
          (e = .allocation ∧ ∃ used more, x.reserve used more = false)) ∧
      ((∀ used more, x.reserve used more = true) →
        (writeHeaders x w headers original title = .error (.limit w.kind) ↔
          w.limit < w.bytes.length + output.length)) ∧
      ∀ k w', w.pushAll x ((lines.flatMap HeaderLine.pieces).take k) = .ok w' → w'.bytes.length ≤ w.limit := by
  intro lines output
  have hcases := BoundedWriter.pushAll_cases (x := x) hw (lines.flatMap HeaderLine.pieces)
  rw [flatten_pieces, ← writeHeaders_eq] at hcases
  refine ⟨headerLines_pairs headers original title, folds_headerLines headers original title,
    readHeaders_headerLines headers original title, ?_, ?_, ?_, ?_, ?_⟩
  · rintro hfold fields spellings rfl hshared name
    obtain ⟨headers', original', heq, hsame⟩ := sameHead_sharedHeaders hfold hshared
    cases heq
    exact hsame.spellings_written title name
  · intro w' hok
    rcases hcases with ⟨hwrite, hfits⟩ | ⟨hwrite, -⟩ | ⟨hwrite, -⟩
    all_goals
      rw [hok] at hwrite
      cases hwrite
    exact ⟨rfl, hfits⟩
  · intro e herror
    rcases hcases with ⟨hwrite, -⟩ | ⟨hwrite, hlong⟩ | ⟨hwrite, hreserve⟩
    all_goals
      rw [herror] at hwrite
      cases hwrite
    · exact .inl ⟨rfl, hlong⟩
    · exact .inr ⟨rfl, hreserve⟩
  · intro hall
    rcases hcases with ⟨hwrite, hfits⟩ | ⟨hwrite, hlong⟩ | ⟨-, used, more, hreserve⟩
    · rw [hwrite]
      exact iff_of_false nofun (Nat.not_lt.mpr hfits)
    · exact iff_of_true hwrite hlong
    · rw [hall used more] at hreserve
      cases hreserve
  · intro k w' hok
    rcases BoundedWriter.pushAll_cases (x := x) hw ((lines.flatMap HeaderLine.pieces).take k) with
      ⟨hwrite, hfits⟩ | ⟨hwrite, -⟩ | ⟨hwrite, -⟩
    all_goals
      rw [hok] at hwrite
      cases hwrite
    simpa using hfits

theorem Reference.namesFold : reference.NamesFold := by
  intro text n h
  simp only [reference, Reference.headerName] at h
  split_ifs at h
  cases h
  rfl

def mixedFields : List RawHeader :=
  [⟨ascii "X-tag", ascii "1"⟩, ⟨ascii "VIA", ascii "a"⟩, ⟨ascii "x-TAG", ascii "2"⟩]

theorem writeHeaders_faithful_mixed : ∃ headers spellings,
    sharedHeaders reference mixedFields true = .ok (headers, some spellings) ∧
      ((headerLines headers (some spellings) true).filter fun l =>
          l.name = ⟨ascii "x-tag", by decide, by decide, by decide⟩).map HeaderLine.spelling =
        [ascii "X-tag", ascii "x-TAG"] := by
  cases hshared : sharedHeaders reference mixedFields true with
  | error e =>
    have hok : (sharedHeaders reference mixedFields true).toOption.isSome = true := by decide +kernel
    rw [hshared] at hok
    cases hok
  | ok state =>
    obtain ⟨headers, spellings, rfl, -⟩ := sameHead_sharedHeaders Reference.namesFold hshared
    refine ⟨headers, spellings, rfl, ?_⟩
    have hsound : (BoundedWriter.new 64).Sound := BoundedWriter.sound_new (by decide)
    have hfaithful := writeHeaders_faithful reference (.new 64) hsound headers (some spellings) true
    rw [hfaithful.2.2.2.1 Reference.namesFold mixedFields spellings rfl hshared]
    decide +kernel

end Vakya
