import Vakya.Head

/-!
# Members of list-valued fields

`for_each_list_member` hands the members of a field value to a handler one by
one. Here the members are a function of the value, so that what a field says is
a fold over a list. Members do not change when whitespace around the value is
lost, and without quotes they are what stands between the commas.
-/

namespace Vakya

/-- The members still to come; `member` is what was read since the last comma. -/
def membersFrom (quoted escaped : Bool) (member : Bytes) : Bytes → Option (List Bytes)
  | [] => if quoted || escaped || member.isEmpty then none else some [member]
  | b :: rest =>
    if escaped then membersFrom quoted false (member ++ [b]) rest
    else if quoted && b == BACKSLASH then membersFrom quoted true (member ++ [b]) rest
    else if b == DQUOTE then membersFrom (!quoted) false (member ++ [b]) rest
    else if b == COMMA && !quoted then
      if member.isEmpty then none else (membersFrom quoted false [] rest).map (member :: ·)
    else membersFrom quoted false (member ++ [b]) rest

def listMembers (value : Bytes) : Option (List Bytes) := membersFrom false false [] value

def fieldMembers : List HeaderValue → Option (List Bytes)
  | [] => some []
  | value :: values => (listMembers value.bytes).bind fun ms => (fieldMembers values).map (ms ++ ·)

section Handlers

variable {A : Type} {error : HeadError} {handle : A → Bytes → Except HeadError A}

theorem foldlM_cons_eq_ok {E B : Type} {f : A → B → Except E A} {b : B} {bs : List B} {s s' : A} :
    (b :: bs).foldlM f s = .ok s' ↔ ∃ a, f s b = .ok a ∧ bs.foldlM f a = .ok s' := by
  rw [List.foldlM_cons, bind_eq_ok_iff]

theorem scanMembers_eq_ok {quoted escaped : Bool} {member rest : Bytes} {s s' : A} :
    scanMembers error handle quoted escaped member s rest = .ok s' ↔
      ∃ ms, membersFrom quoted escaped member rest = some ms ∧ ms.foldlM handle s = .ok s' := by
  induction rest generalizing quoted escaped member s with
  | nil =>
    unfold scanMembers membersFrom
    split_ifs
    · simp
    · have hone : [member].foldlM handle s = handle s member := by
        rw [List.foldlM_cons]
        cases handle s member <;> rfl
      simp [hone]
  | cons b rest ih =>
    unfold scanMembers membersFrom
    by_cases hesc : escaped = true
    · rw [if_pos hesc, if_pos hesc, ih]
    rw [if_neg hesc, if_neg hesc]
    by_cases hback : (quoted && b == BACKSLASH) = true
    · rw [if_pos hback, if_pos hback, ih]
    rw [if_neg hback, if_neg hback]
    by_cases hquote : (b == DQUOTE) = true
    · rw [if_pos hquote, if_pos hquote, ih]
    rw [if_neg hquote, if_neg hquote]
    by_cases hcomma : (b == COMMA && !quoted) = true
    · rw [if_pos hcomma, if_pos hcomma]
      split_ifs
      · simp
      · -- The handler runs on the member before the rest of the value is scanned.
        simp only [Option.map_eq_some_iff]
        constructor
        · intro h
          cases hh : handle s member with
          | error e => simp [hh] at h
          | ok a =>
            simp only [hh] at h
            obtain ⟨ms, hms, hfold⟩ := ih.mp h
            exact ⟨member :: ms, ⟨ms, hms, rfl⟩, foldlM_cons_eq_ok.mpr ⟨a, hh, hfold⟩⟩
        · rintro ⟨_, ⟨ms, hms, rfl⟩, hfold⟩
          obtain ⟨a, hh, hfold⟩ := foldlM_cons_eq_ok.mp hfold
          simp only [hh]
          exact ih.mpr ⟨ms, hms, hfold⟩
    · rw [if_neg hcomma, if_neg hcomma, ih]

theorem forEachListMember_eq_ok {input : Bytes} {s s' : A} :
    forEachListMember error handle input s = .ok s' ↔
      ∃ ms, listMembers input = some ms ∧ ms.foldlM handle s = .ok s' := by
  unfold forEachListMember
  split_ifs with h
  · obtain rfl : input = [] := by simpa using h
    simp [listMembers, membersFrom]
  · exact scanMembers_eq_ok

@[simp] theorem forEachMember_nil (s : A) : forEachMember error handle [] s = .ok s := rfl

/-- A field is read without error exactly when its members can be told apart and the handler
takes them all. -/
theorem forEachMember_eq_ok {values : List HeaderValue} {s s' : A} :
    forEachMember error handle values s = .ok s' ↔
      ∃ ms, fieldMembers values = some ms ∧ ms.foldlM handle s = .ok s' := by
  induction values generalizing s with
  | nil =>
    simp [forEachMember, fieldMembers]
  | cons value values ih =>
    rw [forEachMember, foldlM_cons_eq_ok]
    change (∃ a, _ ∧ forEachMember error handle values a = .ok s') ↔ _
    simp only [forEachListMember_eq_ok, ih, fieldMembers, Option.bind_eq_some_iff,
      Option.map_eq_some_iff]
    constructor
    · rintro ⟨a, ⟨ms, hms, h1⟩, ms', hms', h2⟩
      refine ⟨ms ++ ms', ⟨ms, hms, ms', hms', rfl⟩, ?_⟩
      rw [List.foldlM_append, h1]
      exact h2
    · rintro ⟨_, ⟨ms, hms, ms', hms', rfl⟩, h⟩
      rw [List.foldlM_append] at h
      obtain ⟨a, h1, h2⟩ := bind_eq_ok h
      exact ⟨a, ⟨ms, hms, h1⟩, ms', hms', h2⟩

end Handlers

theorem trimOws_append_left {pre : Bytes} (h : pre.all isOws = true) (value : Bytes) :
    trimOws (pre ++ value) = trimOws value := by
  rw [trimOws, List.dropWhile_append_of_pos (List.all_eq_true.mp h), trimOws]

theorem trimEnd_append {post : Bytes} (h : post.all isOws = true) (value : Bytes) :
    trimEnd (value ++ post) = trimEnd value := by
  have hr : ∀ b ∈ post.reverse, isOws b = true := by simpa using h
  simp only [trimEnd, List.rdropWhile, List.reverse_append, List.dropWhile_append_of_pos hr]

theorem trimOws_append_right {post : Bytes} (h : post.all isOws = true) (value : Bytes) :
    trimOws (value ++ post) = trimOws value := by
  by_cases hall : value.all isOws = true
  · have hboth : (value ++ post).all isOws = true := by simp [hall, h]
    have hnil (v : Bytes) (hv : v.all isOws = true) : trimOws v = [] := by
      simpa [trimOws, trimEnd] using trimOws_append_left hv []
    rw [hnil _ hboth, hnil _ hall]
  · have hne : value.dropWhile isOws ≠ [] := by
      simpa [List.dropWhile_eq_nil_iff] using hall
    have hdrop : (value ++ post).dropWhile isOws = value.dropWhile isOws ++ post := by
      rw [List.dropWhile_append, if_neg (by simpa using hne)]
    rw [trimOws, hdrop, trimEnd_append h, trimOws]

theorem exists_trimOws (value : Bytes) : ∃ pre post : Bytes,
    pre.all isOws = true ∧ post.all isOws = true ∧ value = pre ++ (trimOws value ++ post) := by
  refine ⟨value.takeWhile isOws, (value.dropWhile isOws).rtakeWhile isOws, by simp, ?_, ?_⟩
  · rw [List.all_eq_true]
    exact fun b hb => List.mem_rtakeWhile_imp hb
  · have hsplit : trimOws value ++ (value.dropWhile isOws).rtakeWhile isOws =
        value.dropWhile isOws := by
      simp only [trimOws, trimEnd, List.rdropWhile, List.rtakeWhile]
      rw [← List.reverse_append, List.takeWhile_append_dropWhile, List.reverse_reverse]
    rw [hsplit, List.takeWhile_append_dropWhile]

theorem trimOws_idem (value : Bytes) : trimOws (trimOws value) = trimOws value := by
  obtain ⟨pre, post, hpre, hpost, heq⟩ := exists_trimOws value
  conv_rhs => rw [heq]
  rw [trimOws_append_left hpre, trimOws_append_right hpost]

theorem membersFrom_ows_cons {quoted escaped : Bool} {b : UInt8} (hb : isOws b = true)
    (member rest : Bytes) :
    membersFrom quoted escaped member (b :: rest) = membersFrom quoted false (member ++ [b]) rest := by
  have h1 : (b == BACKSLASH) = false := by
    rw [beq_eq_false_iff_ne]; rintro rfl; revert hb; decide
  have h2 : (b == DQUOTE) = false := by
    rw [beq_eq_false_iff_ne]; rintro rfl; revert hb; decide
  have h3 : (b == COMMA) = false := by
    rw [beq_eq_false_iff_ne]; rintro rfl; revert hb; decide
  cases escaped <;> simp [membersFrom, h1, h2, h3]

theorem membersFrom_ows {post : Bytes} (h : post.all isOws = true) {quoted escaped : Bool}
    (hq : escaped = true → quoted = true) (member : Bytes) :
    membersFrom quoted escaped member post =
      if quoted || (member ++ post).isEmpty then none else some [member ++ post] := by
  induction post generalizing escaped member with
  | nil =>
    cases quoted with
    | true => simp [membersFrom]
    | false =>
      obtain rfl : escaped = false := by simpa using hq
      simp [membersFrom]
  | cons b post ih =>
    simp only [List.all_cons, Bool.and_eq_true] at h
    rw [membersFrom_ows_cons h.1, ih h.2 (by simp)]
    simp

theorem membersFrom_pre {pre : Bytes} (h : pre.all isOws = true) (member rest : Bytes) :
    membersFrom false false member (pre ++ rest) = membersFrom false false (member ++ pre) rest := by
  induction pre generalizing member with
  | nil => simp
  | cons b pre ih =>
    simp only [List.all_cons, Bool.and_eq_true] at h
    rw [List.cons_append, membersFrom_ows_cons h.1, ih h.2]
    simp

def SameMembers (ms ms' : List Bytes) : Prop := ms.map trimOws = ms'.map trimOws

theorem membersFrom_drop_pre {pre : Bytes} (hpre : pre.all isOws = true) {quoted escaped : Bool}
    {member rest : Bytes} {ms : List Bytes}
    (h : membersFrom quoted escaped (pre ++ member) rest = some ms)
    (hne : ∀ m ∈ ms, trimOws m ≠ []) :
    ∃ ms', membersFrom quoted escaped member rest = some ms' ∧ SameMembers ms ms' := by
  have htrim := trimOws_append_left hpre member
  have hmember (hm : trimOws (pre ++ member) ≠ []) : member.isEmpty = false := by
    rw [htrim] at hm
    rw [List.isEmpty_eq_false_iff]
    rintro rfl
    exact hm rfl
  induction rest generalizing quoted escaped member ms with
  | nil =>
    unfold membersFrom at h ⊢
    split_ifs at h with hc
    obtain rfl := Option.some.inj h
    have hmem := hmember (hne _ (by simp))
    simp only [Bool.or_eq_true, not_or, Bool.not_eq_true] at hc
    simp [hc.1.1, hc.1.2, hmem, SameMembers, htrim]
  | cons b rest ih =>
    have step {q e : Bool} (h' : membersFrom q e (pre ++ member ++ [b]) rest = some ms) :
        ∃ ms', membersFrom q e (member ++ [b]) rest = some ms' ∧ SameMembers ms ms' := by
      rw [List.append_assoc] at h'
      refine ih h' hne (trimOws_append_left hpre _) fun _ => by simp
    unfold membersFrom at h ⊢
    by_cases hesc : escaped = true
    · rw [if_pos hesc] at h ⊢
      exact step h
    rw [if_neg hesc] at h ⊢
    by_cases hback : (quoted && b == BACKSLASH) = true
    · rw [if_pos hback] at h ⊢
      exact step h
    rw [if_neg hback] at h ⊢
    by_cases hquote : (b == DQUOTE) = true
    · rw [if_pos hquote] at h ⊢
      exact step h
    rw [if_neg hquote] at h ⊢
    by_cases hcomma : (b == COMMA && !quoted) = true
    · rw [if_pos hcomma] at h ⊢
      split_ifs at h
      obtain ⟨ms, hms, rfl⟩ := Option.map_eq_some_iff.mp h
      have hmem := hmember (hne _ (by simp))
      exact ⟨member :: ms, by simp [hmem, hms], by simp [SameMembers, htrim]⟩
    · rw [if_neg hcomma] at h ⊢
      exact step h

/-- Whitespace after the last member may be dropped. Inside quotes it is no end of the value, so
the scan is then not in quotes. -/
theorem membersFrom_drop_post {post : Bytes} (hpost : post.all isOws = true) {quoted escaped : Bool}
    (hq : escaped = true → quoted = true) {member core : Bytes} {ms : List Bytes}
    (h : membersFrom quoted escaped member (core ++ post) = some ms)
    (hne : ∀ m ∈ ms, trimOws m ≠ []) :
    ∃ ms', membersFrom quoted escaped member core = some ms' ∧ SameMembers ms ms' := by
  induction core generalizing quoted escaped member ms with
  | nil =>
    rw [List.nil_append, membersFrom_ows hpost hq] at h
    split_ifs at h with hc
    obtain rfl := Option.some.inj h
    simp only [Bool.or_eq_true, not_or, Bool.not_eq_true] at hc
    obtain rfl : quoted = false := hc.1
    obtain rfl : escaped = false := by simpa using hq
    have htrim := trimOws_append_right hpost member
    have hmem : member ≠ [] := by
      rintro rfl
      exact hne _ List.mem_cons_self htrim
    exact ⟨[member], by simp [membersFrom, hmem], by simp [SameMembers, htrim]⟩
  | cons b core ih =>
    rw [List.cons_append] at h
    unfold membersFrom at h ⊢
    by_cases hesc : escaped = true
    · rw [if_pos hesc] at h ⊢
      exact ih (by simp) h hne
    rw [if_neg hesc] at h ⊢
    by_cases hback : (quoted && b == BACKSLASH) = true
    · rw [if_pos hback] at h ⊢
      exact ih (fun _ => by simp_all) h hne
    rw [if_neg hback] at h ⊢
    by_cases hquote : (b == DQUOTE) = true
    · rw [if_pos hquote] at h ⊢
      exact ih (by simp) h hne
    rw [if_neg hquote] at h ⊢
    by_cases hcomma : (b == COMMA && !quoted) = true
    · rw [if_pos hcomma] at h ⊢
      split_ifs at h with hempty
      obtain ⟨ms, hms, rfl⟩ := Option.map_eq_some_iff.mp h
      obtain ⟨ms', hms', hsame⟩ := ih (by simp) hms fun m hm => hne m (by simp [hm])
      refine ⟨member :: ms', by simp [hempty, hms'], ?_⟩
      simp only [SameMembers, List.map_cons] at hsame ⊢
      rw [hsame]
    · rw [if_neg hcomma] at h ⊢
      exact ih (by simp) h hne

theorem listMembers_trimOws {value : Bytes} {ms : List Bytes} (h : listMembers value = some ms)
    (hne : ∀ m ∈ ms, trimOws m ≠ []) :
    ∃ ms', listMembers (trimOws value) = some ms' ∧ SameMembers ms ms' := by
  obtain ⟨pre, post, hpre, hpost, heq⟩ := exists_trimOws value
  rw [listMembers, heq, membersFrom_pre hpre, List.nil_append] at h
  obtain ⟨ms₁, h1, hsame₁⟩ := membersFrom_drop_pre hpre (by rwa [List.append_nil]) hne
  have hne₁ : ∀ m ∈ ms₁, trimOws m ≠ [] := by
    intro m hm
    have : trimOws m ∈ ms.map trimOws := hsame₁ ▸ List.mem_map_of_mem hm
    obtain ⟨m', hm', heq'⟩ := List.mem_map.mp this
    exact heq' ▸ hne m' hm'
  obtain ⟨ms₂, h2, hsame₂⟩ := membersFrom_drop_post hpost (by simp) h1 hne₁
  exact ⟨ms₂, h2, hsame₁.trans hsame₂⟩

theorem fieldMembers_trimmed {values : List HeaderValue} {ms : List Bytes}
    (h : fieldMembers values = some ms) (hne : ∀ m ∈ ms, trimOws m ≠ []) :
    ∃ ms', fieldMembers (values.map HeaderValue.trimmed) = some ms' ∧ SameMembers ms ms' := by
  induction values generalizing ms with
  | nil =>
    obtain rfl := Option.some.inj h
    exact ⟨[], rfl, rfl⟩
  | cons value values ih =>
    simp only [fieldMembers, Option.bind_eq_some_iff, Option.map_eq_some_iff] at h
    obtain ⟨ms₁, h1, ms₂, h2, rfl⟩ := h
    obtain ⟨ms₁', h1', hs1⟩ := listMembers_trimOws h1 fun m hm => hne m (by simp [hm])
    obtain ⟨ms₂', h2', hs2⟩ := ih h2 fun m hm => hne m (by simp [hm])
    refine ⟨ms₁' ++ ms₂', ?_, ?_⟩
    · simp [fieldMembers, HeaderValue.trimmed, h1', h2']
    · simp only [SameMembers, List.map_append] at hs1 hs2 ⊢
      rw [hs1, hs2]

/-- A field that is read without error is read the same way once its values have lost their outer
whitespace, provided the handler takes no empty member. -/
theorem forEachMember_trimmed {A : Type} {error : HeadError}
    {handle : A → Bytes → Except HeadError A} (hempty : ∀ a a', handle a [] ≠ .ok a')
    {values : List HeaderValue} {s s' : A}
    (h : forEachMember error (fun a m => handle a (trimOws m)) values s = .ok s') :
    forEachMember error (fun a m => handle a (trimOws m)) (values.map HeaderValue.trimmed) s =
      .ok s' := by
  obtain ⟨ms, hms, hfold⟩ := forEachMember_eq_ok.mp h
  have hne : ∀ m ∈ ms, trimOws m ≠ [] := by
    clear hms h
    intro m hm hnil
    induction ms generalizing s with
    | nil => cases hm
    | cons m' ms ih =>
      obtain ⟨a, h1, h2⟩ := foldlM_cons_eq_ok.mp hfold
      rcases List.mem_cons.mp hm with rfl | hm
      · rw [hnil] at h1
        exact hempty _ _ h1
      · exact ih h2 hm
  obtain ⟨ms', hms', hsame⟩ := fieldMembers_trimmed hms hne
  refine forEachMember_eq_ok.mpr ⟨ms', hms', ?_⟩
  rw [← List.foldlM_map] at hfold ⊢
  rwa [← hsame]

/-- What stands between the commas of all the values, without outer whitespace. -/
def commaMembers (values : List HeaderValue) : List Bytes :=
  values.flatMap fun value => (splitOn COMMA value.bytes).map trimOws

theorem splitOn_cons (b : UInt8) (rest : Bytes) : splitOn COMMA (b :: rest) =
    if b == COMMA then [] :: splitOn COMMA rest
    else (splitOn COMMA rest).modifyHead (List.cons b) :=
  List.splitOn_cons_eq_if_modifyHead b rest

theorem exists_member_of_membersFrom {quoted escaped : Bool} {member rest : Bytes} {ms : List Bytes}
    (h : membersFrom quoted escaped member rest = some ms) : ∃ m ∈ ms, member ⊆ m := by
  induction rest generalizing quoted escaped member ms with
  | nil =>
    unfold membersFrom at h
    split_ifs at h
    obtain rfl := Option.some.inj h
    exact ⟨member, by simp, fun _ hb => hb⟩
  | cons b rest ih =>
    have step {q e : Bool} (h' : membersFrom q e (member ++ [b]) rest = some ms) :
        ∃ m ∈ ms, member ⊆ m := by
      obtain ⟨m, hm, hsub⟩ := ih h'
      exact ⟨m, hm, fun c hc => hsub (List.mem_append_left _ hc)⟩
    unfold membersFrom at h
    split_ifs at h
    · exact step h
    · exact step h
    · exact step h
    · obtain ⟨ms, -, rfl⟩ := Option.map_eq_some_iff.mp h
      exact ⟨member, by simp, fun _ hb => hb⟩
    · exact step h

theorem membersFrom_splitOn {member rest : Bytes} {ms : List Bytes}
    (h : membersFrom false false member rest = some ms) (hplain : ∀ m ∈ ms, DQUOTE ∉ m) :
    ms = (splitOn COMMA rest).modifyHead (member ++ ·) := by
  induction rest generalizing member ms with
  | nil =>
    unfold membersFrom at h
    split_ifs at h
    obtain rfl := Option.some.inj h
    simp [splitOn]
  | cons b rest ih =>
    unfold membersFrom at h
    simp only [Bool.false_eq_true, if_false, Bool.false_and, Bool.not_false, Bool.and_true] at h
    rw [splitOn_cons]
    by_cases hquote : (b == DQUOTE) = true
    · -- A quote would be part of some member.
      rw [if_pos hquote] at h
      obtain ⟨m, hm, hsub⟩ := exists_member_of_membersFrom h
      have hb : b = DQUOTE := by simpa using hquote
      exact absurd (hsub (by simp [hb])) (hplain m hm)
    rw [if_neg hquote] at h
    by_cases hcomma : (b == COMMA) = true
    · rw [if_pos hcomma] at h ⊢
      split_ifs at h
      obtain ⟨ms, hms, rfl⟩ := Option.map_eq_some_iff.mp h
      rw [ih hms fun m hm => hplain m (by simp [hm])]
      cases hsplit : splitOn COMMA rest <;> simp
    · rw [if_neg hcomma] at h ⊢
      rw [ih h hplain]
      cases hsplit : splitOn COMMA rest <;> simp

theorem fieldMembers_eq_commaMembers {values : List HeaderValue} {ms : List Bytes}
    (h : fieldMembers values = some ms) (hplain : ∀ m ∈ ms, DQUOTE ∉ trimOws m) :
    ms.map trimOws = commaMembers values := by
  induction values generalizing ms with
  | nil =>
    obtain rfl := Option.some.inj h
    rfl
  | cons value values ih =>
    simp only [fieldMembers, Option.bind_eq_some_iff, Option.map_eq_some_iff] at h
    obtain ⟨ms₁, h1, ms₂, h2, rfl⟩ := h
    have hquote (m : Bytes) (hm : DQUOTE ∉ trimOws m) : DQUOTE ∉ m := by
      obtain ⟨pre, post, hpre, hpost, heq⟩ := exists_trimOws m
      rw [heq]
      have hows (ws : Bytes) (hws : ws.all isOws = true) : DQUOTE ∉ ws := fun hin =>
        absurd (List.all_eq_true.mp hws _ hin) (by decide)
      simp [hows pre hpre, hows post hpost, hm]
    have hsplit : ms₁ = splitOn COMMA value.bytes := by
      rw [membersFrom_splitOn h1 fun m hm => hquote m (hplain m (by simp [hm]))]
      cases splitOn COMMA value.bytes <;> simp
    rw [List.map_append, ih h2 fun m hm => hplain m (by simp [hm]), hsplit]
    rfl

theorem eq_nil_of_fieldMembers {values : List HeaderValue} (h : fieldMembers values = some []) :
    values = [] := by
  cases values with
  | nil => rfl
  | cons value values =>
    simp only [fieldMembers, Option.bind_eq_some_iff, Option.map_eq_some_iff,
      List.append_eq_nil_iff] at h
    obtain ⟨ms, hms, _, -, rfl, -⟩ := h
    obtain ⟨m, hm, -⟩ := exists_member_of_membersFrom hms
    cases hm

end Vakya
