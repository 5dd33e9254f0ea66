import Vakya.HeadEnd

/-!
# The head scan over growing input

`head_len` is called with more and more of one byte stream. What it reports is a function of the
current input alone: the least length at which an empty line ends, if that lies within the byte
limit. The scan only remembers what the function of the earlier input was.
-/

namespace Vakya

/-- The text ends in two newlines, with at most a CR between them, and the first of them comes after
a byte that is neither CR nor LF. -/
def EndsHead (text : Bytes) : Prop :=
  ∃ before, (text = before ++ [LF, LF] ∨ text = before ++ [LF, CR, LF]) ∧ ∃ b ∈ before, isNewline b = false

def HeadEndsAt (input : Bytes) (n : ℕ) : Prop := n ≤ input.length ∧ EndsHead (input.take n)

def LeastHeadEnd (input : Bytes) (n : ℕ) : Prop := HeadEndsAt input n ∧ ∀ m < n, ¬HeadEndsAt input m

theorem not_endsHead_leading {text : Bytes} (h : text.all isNewline = true) : ¬EndsHead text := by
  rintro ⟨before, hends, b, hb, hnot⟩
  have hmem : b ∈ text := by
    rcases hends with rfl | rfl
    · exact List.mem_append_left _ hb
    · exact List.mem_append_left _ hb
  rw [List.all_eq_true.mp h b hmem] at hnot
  cases hnot

theorem closes_lineAfter (text : Bytes) (b : UInt8) :
    (HeadScan.lineAfter text).closes b = true ↔
      b = LF ∧ (text.getLast? = some LF ∨ text.getLast? = some CR ∧ text.dropLast.getLast? = some LF) := by
  unfold HeadScan.lineAfter
  split_ifs with hlf hcr
  · simp [ScanLine.closes, hlf]
  · simp [ScanLine.closes, hcr]
  · simp [ScanLine.closes, hlf, hcr]

theorem endsHead_append {lead text : Bytes} (hhead : ∃ a rest, text = a :: rest ∧ isNewline a = false) (b : UInt8) :
    EndsHead (lead ++ (text ++ [b])) ↔ (HeadScan.lineAfter text).closes b = true := by
  rw [closes_lineAfter]
  obtain ⟨a, rest, htext, ha⟩ := hhead
  have hne : text ≠ [] := by
    rw [htext]
    exact List.cons_ne_nil a rest
  have hfirst {u v : Bytes} (hsplit : text = u ++ v) (hu : u ≠ []) : ∃ c ∈ lead ++ u, isNewline c = false := by
    obtain ⟨c, u', rfl⟩ := List.exists_cons_of_ne_nil hu
    rw [htext, List.cons_append] at hsplit
    cases hsplit
    exact ⟨a, by simp, ha⟩
  have ha' : a ≠ CR ∧ a ≠ LF := by simpa [isNewline] using ha
  have hlast {c : UInt8} {u : Bytes} (hsplit : text = u ++ [c]) (hc : isNewline c = true) : u ≠ [] := by
    rintro rfl
    rw [htext, List.nil_append] at hsplit
    cases hsplit
    rw [ha] at hc
    cases hc
  constructor
  · rintro ⟨before, hends | hends, -⟩
    · have hsplit : lead ++ text ++ [b] = before ++ [LF] ++ [LF] := by simpa using hends
      obtain ⟨hsplit, hb⟩ := List.append_inj' hsplit rfl
      refine ⟨by simpa using hb, .inl ?_⟩
      rw [← List.getLast?_append_of_ne_nil lead hne, hsplit, List.getLast?_concat]
    · have hsplit : lead ++ text ++ [b] = before ++ [LF] ++ [CR] ++ [LF] := by simpa using hends
      obtain ⟨hsplit, hb⟩ := List.append_inj' hsplit rfl
      have hcr : text.getLast? = some CR := by
        rw [← List.getLast?_append_of_ne_nil lead hne, hsplit, List.getLast?_concat]
      obtain ⟨u, hu⟩ := List.getLast?_eq_some_iff.mp hcr
      have hune := hlast hu rfl
      rw [hu, ← List.append_assoc] at hsplit
      obtain ⟨hsplit, -⟩ := List.append_inj' hsplit rfl
      refine ⟨by simpa using hb, .inr ⟨hcr, ?_⟩⟩
      rw [hu, List.dropLast_concat, ← List.getLast?_append_of_ne_nil lead hune, hsplit, List.getLast?_concat]
  · rintro ⟨rfl, hlf | ⟨hcr, hlf⟩⟩
    · obtain ⟨u, hu⟩ := List.getLast?_eq_some_iff.mp hlf
      refine ⟨lead ++ u, .inl (by rw [hu]; simp), hfirst hu (hlast hu rfl)⟩
    · obtain ⟨u, hu⟩ := List.getLast?_eq_some_iff.mp hcr
      rw [hu, List.dropLast_concat] at hlf
      obtain ⟨v, rfl⟩ := List.getLast?_eq_some_iff.mp hlf
      have hv : v ≠ [] := by
        rintro rfl
        rw [htext] at hu
        cases hu
        exact ha'.2 rfl
      refine ⟨lead ++ v, .inr (by rw [hu]; simp), hfirst (v := [LF, CR]) (by rw [hu]; simp) hv⟩

theorem not_endsHead_first {lead : Bytes} {a : UInt8} (ha : isNewline a = false) : ¬EndsHead (lead ++ [a]) := by
  have hlf : a ≠ LF := by
    rintro rfl
    cases ha
  rintro ⟨before, hends, -⟩
  have hlast : (lead ++ [a]).getLast? = some LF := by
    rcases hends with hends | hends
    · rw [hends, List.append_cons, List.getLast?_concat]
    · rw [hends, List.append_cons, List.append_cons, List.getLast?_concat]
  rw [List.getLast?_concat] at hlast
  exact hlf (Option.some.inj hlast)

theorem headEndsAt_iff {input : Bytes} {n : ℕ} :
    HeadEndsAt input n ↔ ∃ i, i < (input.dropWhile isNewline).length ∧
      emptyLineAt (input.dropWhile isNewline) i = true ∧ n = (input.takeWhile isNewline).length + i + 1 := by
  set lead := input.takeWhile isNewline with hlead
  set text := input.dropWhile isNewline with htext
  have hinput : input = lead ++ text := List.takeWhile_append_dropWhile.symm
  have hall : lead.all isNewline = true := List.all_takeWhile
  -- Within the leading newlines nothing ends, and behind them the last byte decides.
  have hpart {i : ℕ} (hi : i < text.length) :
      EndsHead (input.take (lead.length + i + 1)) ↔ emptyLineAt text i = true := by
    have htake : input.take (lead.length + i + 1) = lead ++ (text.take i ++ [text[i]]) := by
      rw [hinput, Nat.add_assoc, List.take_length_add_append, List.take_append_getElem]
    have hsplit : text = text.take i ++ text[i] :: text.drop (i + 1) := by
      rw [List.getElem_cons_drop, List.take_append_drop]
    have hstart : ∀ a rest, text = a :: rest → isNewline a = false := by
      intro a rest heq
      have := List.head?_dropWhile_not isNewline input
      rw [← htext, heq] at this
      simpa using this
    rw [htake]
    cases i with
    | zero =>
      obtain ⟨a, rest, heq⟩ := List.exists_cons_of_ne_nil (List.length_pos_iff.mp hi)
      have ha := hstart a rest heq
      have hfalse : emptyLineAt text 0 = false := by
        have hlf : a ≠ LF := by
          rintro rfl
          cases ha
        simp [emptyLineAt, heq, hlf]
      have hfirst : text.take 0 ++ [text[0]] = [a] := by simp [heq]
      rw [hfalse, hfirst]
      exact iff_of_false (not_endsHead_first ha) (by decide)
    | succ i =>
      have hhead : ∃ a rest, text.take (i + 1) = a :: rest ∧ isNewline a = false := by
        obtain ⟨a, rest, heq⟩ := List.exists_cons_of_ne_nil (List.length_pos_iff.mp (by omega : 0 < text.length))
        exact ⟨a, rest.take i, by rw [heq, List.take_succ_cons], hstart a rest heq⟩
      have hlen : (text.take (i + 1)).length = i + 1 := by
        rw [List.length_take]
        omega
      have hcloses := HeadScan.closes_iff hhead text[i + 1] (text.drop (i + 1 + 1))
      rw [hlen, ← hsplit] at hcloses
      rw [endsHead_append hhead, hcloses]
  constructor
  · rintro ⟨hle, hends⟩
    -- an end within the leading newlines would have nothing before it
    have hlt : lead.length < n := by
      by_contra hnot
      refine not_endsHead_leading ?_ hends
      rw [hinput, List.take_append_of_le_length (by omega), List.all_eq_true]
      intro b hb
      exact List.all_eq_true.mp hall b (List.mem_of_mem_take hb)
    obtain ⟨i, rfl⟩ : ∃ i, n = lead.length + i + 1 := ⟨n - lead.length - 1, by omega⟩
    have hlen := congrArg List.length hinput
    rw [List.length_append] at hlen
    have hi : i < text.length := by omega
    exact ⟨i, hi, (hpart hi).mp hends, rfl⟩
  · rintro ⟨i, hi, hempty, rfl⟩
    have hlen := congrArg List.length hinput
    rw [List.length_append] at hlen
    exact ⟨by omega, (hpart hi).mpr hempty⟩

theorem found_eq_some_iff {input : Bytes} {n : ℕ} :
    (HeadScan.scanFrom 0 .leading input).found = some n ↔ LeastHeadEnd input n := by
  rw [HeadScan.found_eq_firstEmptyLine, firstEmptyLine, Option.map_eq_some_iff]
  constructor
  · rintro ⟨i, hfind, rfl⟩
    obtain ⟨hempty, hmem, hfirst⟩ := List.find?_range_eq_some.mp hfind
    rw [List.mem_range] at hmem
    refine ⟨headEndsAt_iff.mpr ⟨i, hmem, hempty, rfl⟩, ?_⟩
    intro m hm hends
    obtain ⟨j, hj, hempty', rfl⟩ := headEndsAt_iff.mp hends
    have hnot := hfirst j (by omega)
    rw [hempty'] at hnot
    cases hnot
  · rintro ⟨hends, hleast⟩
    obtain ⟨i, hi, hempty, rfl⟩ := headEndsAt_iff.mp hends
    refine ⟨i, List.find?_range_eq_some.mpr ⟨hempty, List.mem_range.mpr hi, ?_⟩, rfl⟩
    intro j hj
    by_contra hnot
    refine hleast _ (by omega) (headEndsAt_iff.mpr ⟨j, by omega, by simpa using hnot, rfl⟩)

theorem leastHeadEnd_take {input : Bytes} {limit n : ℕ} :
    LeastHeadEnd (input.take limit) n ↔ n ≤ limit ∧ LeastHeadEnd input n := by
  have hends {m : ℕ} (hm : m ≤ limit) : HeadEndsAt (input.take limit) m ↔ HeadEndsAt input m := by
    have htake : (input.take limit).take m = input.take m := by
      rw [List.take_take, Nat.min_eq_left hm]
    simp only [HeadEndsAt, htake, List.length_take]
    constructor
    · rintro ⟨hle, h⟩
      exact ⟨by omega, h⟩
    · rintro ⟨hle, h⟩
      exact ⟨by omega, h⟩
  constructor
  · rintro ⟨hn, hleast⟩
    have hle := hn.1
    rw [List.length_take] at hle
    refine ⟨by omega, (hends (by omega)).mp hn, ?_⟩
    intro m hm h
    exact hleast m hm ((hends (by omega)).mpr h)
  · rintro ⟨hle, hn, hleast⟩
    refine ⟨(hends hle).mpr hn, ?_⟩
    intro m hm h
    exact hleast m hm ((hends (by omega)).mp h)

theorem LeastHeadEnd.mono {input input' : Bytes} {n : ℕ} (h : LeastHeadEnd input n) (hmore : input <+: input') :
    LeastHeadEnd input' n := by
  have htake : input = input'.take input.length := List.prefix_iff_eq_take.mp hmore
  rw [htake] at h
  exact (leastHeadEnd_take.mp h).2

namespace HeadParser

def Remembers (p : HeadParser) (seen : Bytes) : Prop :=
  p.scan = .default ∨ p.scan = HeadScan.scanFrom 0 .leading (seen.take p.limits.maxBytes)

def headLenOf (limit : ℕ) (input : Bytes) : Except HeadError (Option ℕ) :=
  match (HeadScan.scanFrom 0 .leading (input.take limit)).found with
  | some n => .ok (some n)
  | none => if input.length > limit then .error (.limit .bytes) else .ok none

theorem Remembers.completeHead {p : HeadParser} {seen input : Bytes} (h : p.Remembers seen) (hmore : seen <+: input) :
    p.scan.completeHead (input.take p.limits.maxBytes) =
      (HeadScan.scanFrom 0 .leading (input.take p.limits.maxBytes),
        (HeadScan.scanFrom 0 .leading (input.take p.limits.maxBytes)).found) := by
  obtain ⟨more, rfl⟩ := hmore
  rcases h with hnew | hseen
  · rw [hnew]
    exact HeadScan.follows_default.completeHead _
  rw [List.take_append] at *
  cases hscan : HeadScan.scanFrom 0 .leading (seen.take p.limits.maxBytes) with
  | scanning scanned line =>
    have hfollows : p.scan.Follows (seen.take p.limits.maxBytes) := ⟨hseen, by rw [hseen, hscan]; rfl⟩
    exact hfollows.completeHead _
  | complete n =>
    -- A head that was found lies in what was seen, so it is reported again.
    have hle := (HeadScan.length_of_scanFrom hscan).2
    rw [Nat.zero_add] at hle
    rw [hseen, HeadScan.scanFrom_append, hscan]
    have hfits : n ≤ (seen.take p.limits.maxBytes ++ more.take (p.limits.maxBytes - seen.length)).length := by
      rw [List.length_append]
      omega
    exact if_pos hfits

theorem Remembers.headLen {p : HeadParser} {seen input : Bytes} (h : p.Remembers seen) (hmore : seen <+: input) :
    (p.headLen input).2 = headLenOf p.limits.maxBytes input ∧ (p.headLen input).1.Remembers input ∧
      (p.headLen input).1.limits = p.limits := by
  have hview : input.take (p.parseInputLen input) = input.take p.limits.maxBytes := by
    rw [parseInputLen, Nat.min_comm, ← List.take_eq_take_min]
  simp only [HeadParser.headLen, hview, h.completeHead hmore, headLenOf]
  cases (HeadScan.scanFrom 0 .leading (input.take p.limits.maxBytes)).found with
  | some n => exact ⟨rfl, .inr rfl, rfl⟩
  | none =>
    dsimp only
    split_ifs
    · exact ⟨rfl, .inl rfl, rfl⟩
    · exact ⟨rfl, .inr rfl, rfl⟩

/-- A parser no input has been passed to since it was made or reset. -/
inductive Ready (x : Crates) : HeadParser → Prop
  | fresh (limits : HeadLimits) (preserve : Bool) : Ready x ((withLimits limits).withPreservedHeaderCase preserve)
  | parsedRequest (p : HeadParser) (input : Bytes) : Ready x (p.parseSharedRequest x input).1
  | parsedResponse (p : HeadParser) (input : Bytes) : Ready x (p.parseSharedResponse x input).1
  | limit {p : HeadParser} {input : Bytes} {e : HeadError} : (p.headLen input).2 = .error e →
      Ready x (p.headLen input).1

theorem Ready.scan {x : Crates} {p : HeadParser} (h : Ready x p) : p.scan = .default := by
  cases h with
  | fresh limits preserve => rfl
  | parsedRequest p input => rfl
  | parsedResponse p input => rfl
  | @limit p input e he =>
    simp only [HeadParser.headLen] at he ⊢
    split at he
    · cases he
    · split_ifs at he ⊢
      rfl

def afterCalls (p : HeadParser) (inputs : List Bytes) : HeadParser :=
  inputs.foldl (fun p input => (p.headLen input).1) p

theorem remembers_afterCalls {p : HeadParser} {seen input : Bytes} {inputs : List Bytes} (h : p.Remembers seen)
    (hchain : (seen :: inputs ++ [input]).IsChain (· <+: ·)) :
    ∃ last, (p.afterCalls inputs).Remembers last ∧ last <+: input ∧ (p.afterCalls inputs).limits = p.limits := by
  induction inputs generalizing p seen with
  | nil =>
    rw [List.singleton_append, List.isChain_pair] at hchain
    exact ⟨seen, h, hchain, rfl⟩
  | cons next inputs ih =>
    rw [List.cons_append, List.cons_append, List.isChain_cons_cons] at hchain
    obtain ⟨-, hnext, hlimits⟩ := h.headLen hchain.1
    obtain ⟨last, hlast, hle, heq⟩ := ih hnext hchain.2
    exact ⟨last, hlast, hle, heq.trans hlimits⟩

theorem headLen_afterCalls {x : Crates} {p : HeadParser} (h : Ready x p) {inputs : List Bytes} {input : Bytes}
    (hchain : (inputs ++ [input]).IsChain (· <+: ·)) :
    ((p.afterCalls inputs).headLen input).2 = headLenOf p.limits.maxBytes input := by
  have hempty : ([] :: inputs ++ [input]).IsChain (· <+: ·) := by
    rw [List.cons_append, List.isChain_cons]
    exact ⟨fun next _ => List.nil_prefix, hchain⟩
  obtain ⟨last, hlast, hle, hlimits⟩ := remembers_afterCalls (.inl h.scan) hempty
  rw [(hlast.headLen hle).1, hlimits]

/-- The answer for an input is what the definition of a head's end says. -/
theorem headLenOf_spec (limit : ℕ) (input : Bytes) :
    (∀ n, headLenOf limit input = .ok (some n) ↔ n ≤ limit ∧ LeastHeadEnd input n) ∧
      (headLenOf limit input = .ok none ↔ (¬∃ n ≤ limit, LeastHeadEnd input n) ∧ input.length ≤ limit) ∧
      (headLenOf limit input = .error (.limit .bytes) ↔
        (¬∃ n ≤ limit, LeastHeadEnd input n) ∧ limit < input.length) := by
  have hfound (n : ℕ) : (HeadScan.scanFrom 0 .leading (input.take limit)).found = some n ↔
      n ≤ limit ∧ LeastHeadEnd input n := found_eq_some_iff.trans leastHeadEnd_take
  unfold headLenOf
  cases hscan : (HeadScan.scanFrom 0 .leading (input.take limit)).found with
  | some n =>
    have hn := (hfound n).mp hscan
    refine ⟨?_, ?_, ?_⟩
    · intro m
      rw [← hfound m, hscan]
      simp
    · exact iff_of_false nofun (fun h => h.1 ⟨n, hn⟩)
    · exact iff_of_false nofun (fun h => h.1 ⟨n, hn⟩)
  | none =>
    have hnone : ¬∃ n ≤ limit, LeastHeadEnd input n := by
      rintro ⟨n, hn⟩
      have := (hfound n).mpr hn
      rw [hscan] at this
      cases this
    dsimp only
    split_ifs with hlong
    · refine ⟨fun n => iff_of_false nofun fun hn => hnone ⟨n, hn⟩, ?_, ?_⟩
      · exact iff_of_false nofun (fun h => absurd h.2 (by omega))
      · exact iff_of_true rfl ⟨hnone, hlong⟩
    · refine ⟨fun n => iff_of_false nofun fun hn => hnone ⟨n, hn⟩, ?_, ?_⟩
      · exact iff_of_true rfl ⟨hnone, by omega⟩
      · exact iff_of_false nofun (fun h => absurd h.2 hlong)

/-- Every call on a growing stream, from a new or reset parser: the one-shot answer for the current
input, and once a length was found, that length on any extension. -/
theorem headLen_incremental (x : Crates) {p : HeadParser} (hp : Ready x p) (earlier : List Bytes) (input : Bytes)
    (hchain : (earlier ++ [input]).IsChain (· <+: ·)) :
    (∀ n, ((p.afterCalls earlier).headLen input).2 = .ok (some n) ↔
      n ≤ p.limits.maxBytes ∧ LeastHeadEnd input n) ∧
    (((p.afterCalls earlier).headLen input).2 = .ok none ↔
      (¬∃ n ≤ p.limits.maxBytes, LeastHeadEnd input n) ∧ input.length ≤ p.limits.maxBytes) ∧
    (((p.afterCalls earlier).headLen input).2 = .error (.limit .bytes) ↔
      (¬∃ n ≤ p.limits.maxBytes, LeastHeadEnd input n) ∧ p.limits.maxBytes < input.length) ∧
    ∀ n, ((p.afterCalls earlier).headLen input).2 = .ok (some n) →
      ∀ later input', ((earlier ++ [input] ++ later) ++ [input']).IsChain (· <+: ·) →
        ((p.afterCalls (earlier ++ [input] ++ later)).headLen input').2 = .ok (some n) := by
  obtain ⟨hsome, hnone, herror⟩ := headLenOf_spec p.limits.maxBytes input
  rw [headLen_afterCalls hp hchain]
  refine ⟨hsome, hnone, herror, ?_⟩
  intro n hn later input' hlater
  rw [headLen_afterCalls hp hlater]
  obtain ⟨hle, hleast⟩ := (hsome n).mp hn
  have hgrows : input <+: input' := by
    have hpairs := List.isChain_iff_pairwise.mp hlater
    rw [List.append_assoc, List.pairwise_append] at hpairs
    exact hpairs.2.2 input (by simp) input' (by simp)
  exact ((headLenOf_spec p.limits.maxBytes input').1 n).mpr ⟨hle, hleast.mono hgrows⟩

/-- A head of seven bytes at a limit of seven, cut inside its last CRLF. -/
theorem headLen_incremental_sample :
    (((withLimits ⟨7, 4, by decide, by decide⟩).afterCalls [ascii "\r\nA\r\n\r"]).headLen
        (ascii "\r\nA\r\n\r\nB")).2 = .ok (some 7) ∧ LeastHeadEnd (ascii "\r\nA\r\n\r\nB") 7 := by
  have hrun : (((withLimits ⟨7, 4, by decide, by decide⟩).afterCalls [ascii "\r\nA\r\n\r"]).headLen
      (ascii "\r\nA\r\n\r\nB")).2 = .ok (some 7) := by rfl
  have hspec := headLen_incremental reference (.fresh ⟨7, 4, by decide, by decide⟩ false) [ascii "\r\nA\r\n\r"]
    (ascii "\r\nA\r\n\r\nB") (by decide)
  exact ⟨hrun, ((hspec.1 7).mp hrun).2⟩

end HeadParser

end Vakya
