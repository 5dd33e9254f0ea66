import Vakya.Upgrade

/-!
# Reading an upgraded transport (`upgrade.rs`)

The bytes read beyond the message come first, then the transport's. The prefix
moves with the halves through erasure, downcasts and the split. A buffer is the
memory behind its uninitialised slices, in collection order; the transport is
arbitrary.
-/

namespace Vakya

open Library

/-- What a read is given: one slice of memory, or several. -/
inductive ReadTarget
  | scalar (buffer : Bytes)
  | vectored (buffers : List Bytes)

/-- The `AsyncRead` of a transport half: its state after a read, the result, and the bytes that the
read has initialised. -/
structure TransportRead (V I E : Type) where
  read : V → ReadTarget → I → V × Except E ℕ × Bytes

/-- A read as the caller sees it, and what the transport did if a read was submitted to it. -/
structure IoReturn (V E : Type) where
  result : Except E ℕ
  bytes : Bytes
  transport : Option (V × Bytes)

def setLen (memory : List Bytes) (count : ℕ) : Bytes := memory.flatten.take count

namespace Half

variable {N V I E : Type}

/-- Reading an erased half reads the half it was made of; a write half cannot be read. -/
def read (A : TransportRead V I E) (half : Half N V) (target : ReadTarget) (i : I) :
    Option (Half N V × IoReturn V E) :=
  match half with
  | .named name value =>
    let (value, result, bytes) := A.read value target i
    some (.named name value, ⟨result, bytes, some (value, bytes)⟩)
  | .boxedRead inner => (inner.read A target i).map fun p => (.boxedRead p.1, p.2)
  | .boxedWrite _ => none

def core : Half N V → N × V
  | .named name value => (name, value)
  | .boxedRead inner => inner.core
  | .boxedWrite inner => inner.core

def isReader : Half N V → Bool
  | .named _ _ => true
  | .boxedRead inner => inner.isReader
  | .boxedWrite _ => false

end Half

section Reads

variable {N V I E : Type} (A : TransportRead V I E)

def readPrefixed (reader : Half N V) (readAhead : Bytes) (buffer : Bytes) (i : I) :
    Option (Half N V × Bytes × IoReturn V E) :=
  if readAhead.isEmpty then
    (reader.read A (.scalar buffer) i).map fun p => (p.1, readAhead, p.2)
  else
    let count := min buffer.length readAhead.length
    let buffer := readAhead.take count ++ buffer.drop count
    some (reader, readAhead.drop count, ⟨.ok count, setLen [buffer] count, none⟩)

/-- The loop over the slices; `none` when `prefix.len() - count` underflows. -/
def fillSlices (readAhead : Bytes) (count : ℕ) : List Bytes → Option (List Bytes × ℕ)
  | [] => some ([], count)
  | buffer :: rest =>
    if readAhead.length < count then none
    else
      let n := min buffer.length (readAhead.length - count)
      let buffer := (readAhead.drop count).take n ++ buffer.drop n
      let count := count + n
      if count = readAhead.length then some (buffer :: rest, count)
      else (fillSlices readAhead count rest).map fun p => (buffer :: p.1, p.2)

def readVectoredPrefixed (reader : Half N V) (readAhead : Bytes) (buffers : List Bytes) (i : I) :
    Option (Half N V × Bytes × IoReturn V E) :=
  if readAhead.isEmpty then
    (reader.read A (.vectored buffers) i).map fun p => (p.1, readAhead, p.2)
  else
    match fillSlices readAhead 0 buffers with
    | none => none
    | some (buffers, count) =>
      -- `Bytes::advance` panics beyond the end
      if count ≤ readAhead.length then
        some (reader, readAhead.drop count, ⟨.ok count, setLen buffers count, none⟩)
      else none

def readInto (reader : Half N V) (readAhead : Bytes) (target : ReadTarget) (i : I) :
    Option (Half N V × Bytes × IoReturn V E) :=
  match target with
  | .scalar buffer => readPrefixed A reader readAhead buffer i
  | .vectored buffers => readVectoredPrefixed A reader readAhead buffers i

end Reads

structure UpgradedReadHalf (N V : Type) where
  reader : Half N V
  readAhead : Bytes

/-- An upgraded transport while it is used: whole (erased or not), split, or taken apart. -/
inductive UpgradedIo (N V : Type)
  | whole (u : Upgraded N V)
  | split (half : UpgradedReadHalf N V) (writer : Half N V)
  | parts (reader writer : Half N V) (readAhead : Bytes) (kind : UpgradeKind)
  | halfParts (reader : Half N V) (readAhead : Bytes) (writer : Half N V)

inductive UpgradedCall (N I : Type)
  | read (target : ReadTarget) (input : I)
  | boxed
  | downcast (reader writer : TypeId N)
  | intoSplit
  | intoParts

/-- What a call returned; a downcast is refused or not. -/
structure UpgradedOutput (V E : Type) where
  read : Option (IoReturn V E)
  refused : Bool

def UpgradedOutput.silent {V E : Type} : UpgradedOutput V E := ⟨none, false⟩

def upgradedIo {N V I E : Type} [DecidableEq N] (A : TransportRead V I E) :
    Machine (UpgradedIo N V) (UpgradedCall N I) (UpgradedOutput V E) where
  step
    | .whole u, .read target i =>
      (readInto A u.reader u.readAhead target i).map fun (reader, readAhead, r) =>
        (.whole { u with reader := reader, readAhead := readAhead }, ⟨some r, false⟩)
    | .whole u, .boxed => some (.whole u.boxed, .silent)
    | .whole u, .downcast reader writer =>
      match u.reader, u.writer with
      | .boxedRead _, .boxedWrite _ =>
        match u.downcast reader writer with
        | .ok u => some (.whole u, .silent)
        | .error u => some (.whole u, ⟨none, true⟩)
      | _, _ => none
    | .whole u, .intoSplit => some (.split ⟨u.reader, u.readAhead⟩ u.writer, .silent)
    | .whole u, .intoParts => some (.parts u.reader u.writer u.readAhead u.kind, .silent)
    | .split half writer, .read target i =>
      (readInto A half.reader half.readAhead target i).map fun (reader, readAhead, r) =>
        (.split ⟨reader, readAhead⟩ writer, ⟨some r, false⟩)
    | .split half writer, .intoParts => some (.halfParts half.reader half.readAhead writer, .silent)
    | _, _ => none

theorem fillSlices_cons {readAhead : Bytes} {count : ℕ} (h : count ≤ readAhead.length) (buffer : Bytes)
    (rest : List Bytes) : ∃ next n, n = min buffer.length (readAhead.length - count) ∧
      next.length = buffer.length ∧ next.take n = (readAhead.drop count).take n ∧
      fillSlices readAhead count (buffer :: rest) =
        if count + n = readAhead.length then some (next :: rest, count + n)
        else (fillSlices readAhead (count + n) rest).map fun p => (next :: p.1, p.2) := by
  set n := min buffer.length (readAhead.length - count) with hn
  have hlen : ((readAhead.drop count).take n).length = n := by
    rw [List.length_take, List.length_drop]
    omega
  refine ⟨(readAhead.drop count).take n ++ buffer.drop n, n, rfl, ?_, ?_, ?_⟩
  · rw [List.length_append, hlen, List.length_drop]
    omega
  · rw [List.take_append_of_le_length (by omega), List.take_take, min_self]
  · exact if_neg (by omega)

/-- The slices receive the next bytes of the prefix, in order, until one of both is exhausted. -/
theorem fillSlices_spec {readAhead : Bytes} {count : ℕ} (buffers : List Bytes) (h : count ≤ readAhead.length) :
    ∃ filled total, fillSlices readAhead count buffers = some (filled, total) ∧ count ≤ total ∧
      total ≤ readAhead.length ∧ filled.flatten.take (total - count) = (readAhead.drop count).take (total - count) := by
  induction buffers generalizing count with
  | nil => exact ⟨[], count, rfl, le_refl _, h, by simp⟩
  | cons buffer rest ih =>
    obtain ⟨next, n, hn, hlen, htake, heq⟩ := fillSlices_cons h buffer rest
    rw [heq]
    by_cases hend : count + n = readAhead.length
    · -- the prefix is exhausted, and the other slices are left alone
      refine ⟨next :: rest, count + n, if_pos hend, by omega, by omega, ?_⟩
      rw [Nat.add_sub_cancel_left, List.flatten_cons, List.take_append_of_le_length (by omega), htake]
    · -- the slice is full
      have hfull : next.length = n := by omega
      obtain ⟨filled, total, hfill, hle, htotal, hbytes⟩ := ih (show count + n ≤ readAhead.length by omega)
      refine ⟨next :: filled, total, by rw [if_neg hend, hfill, Option.map_some], by omega, htotal, ?_⟩
      have hsplit : total - count = n + (total - (count + n)) := by omega
      have hnext : next = (readAhead.drop count).take n := by rw [← htake, ← hfull, List.take_length]
      calc (next :: filled).flatten.take (total - count)
          = next ++ filled.flatten.take (total - (count + n)) := by
            rw [List.flatten_cons, hsplit, ← hfull, List.take_length_add_append]
        _ = (readAhead.drop count).take n ++ ((readAhead.drop count).drop n).take (total - (count + n)) := by
            rw [hbytes, List.drop_drop, ← hnext]
        _ = (readAhead.drop count).take (total - count) := by rw [hsplit, List.take_add]

section Reads

variable {N V I E : Type} {A : TransportRead V I E}

theorem Half.read_spec {half half' : Half N V} {target : ReadTarget} {i : I} {r : IoReturn V E}
    (h : half.read A target i = some (half', r)) : ∃ value, r.transport = some (value, r.bytes) ∧
      half'.core = (half.core.1, value) ∧ half'.isReader = half.isReader := by
  induction half generalizing half' with
  | named name value =>
    cases h
    exact ⟨_, rfl, rfl, rfl⟩
  | boxedRead inner ih =>
    obtain ⟨⟨inner', r'⟩, hinner, heq⟩ := Option.map_eq_some_iff.mp h
    cases heq
    obtain ⟨value, htransport, hcore, hreader⟩ := ih hinner
    exact ⟨value, htransport, hcore, hreader⟩
  | boxedWrite inner => cases h

theorem Half.read_isSome {half : Half N V} (h : half.isReader = true) (target : ReadTarget) (i : I) :
    (half.read A target i).isSome = true := by
  induction half with
  | named name value => rfl
  | boxedRead inner ih => simpa [Half.read] using ih h
  | boxedWrite inner => cases h

/-- Everything that a read can do: it replays a part of what was read ahead, or there is nothing
left of it and the transport is read. -/
inductive PrefixRead (reader : Half N V) (readAhead : Bytes) : Half N V × Bytes × IoReturn V E → Prop
  | replayed {taken rest : Bytes} (hne : readAhead ≠ []) (h : readAhead = taken ++ rest) :
      PrefixRead reader readAhead (reader, rest, ⟨.ok taken.length, taken, none⟩)
  | submitted {reader' : Half N V} {value : V} {r : IoReturn V E} (h : readAhead = [])
      (hr : r.transport = some (value, r.bytes)) (hcore : reader'.core = (reader.core.1, value))
      (hreader : reader'.isReader = reader.isReader) : PrefixRead reader readAhead (reader', [], r)

theorem prefixRead_of_read {reader : Half N V} {readAhead : Bytes} {target : ReadTarget} {i : I}
    {p : Half N V × Bytes × IoReturn V E} (hempty : readAhead = [])
    (h : ((reader.read A target i).map fun p => (p.1, readAhead, p.2)) = some p) :
    PrefixRead reader readAhead p := by
  obtain ⟨⟨reader', r⟩, hr, heq⟩ := Option.map_eq_some_iff.mp h
  obtain ⟨value, htransport, hcore, hreader⟩ := Half.read_spec hr
  subst hempty heq
  exact .submitted rfl htransport hcore hreader

theorem readPrefixed_spec {reader : Half N V} {readAhead buffer : Bytes} {i : I}
    {p : Half N V × Bytes × IoReturn V E} (h : readPrefixed A reader readAhead buffer i = some p) :
    PrefixRead reader readAhead p := by
  unfold readPrefixed at h
  split_ifs at h with hempty
  · exact prefixRead_of_read (List.isEmpty_iff.mp hempty) h
  · set count := min buffer.length readAhead.length with hcount
    have hlen : (readAhead.take count).length = count := by
      rw [List.length_take]
      omega
    have hset : setLen [readAhead.take count ++ buffer.drop count] count = readAhead.take count := by
      rw [setLen, List.flatten_singleton, List.take_append_of_le_length (by omega), List.take_take, min_self]
    cases h
    rw [hset]
    have hreplayed : PrefixRead reader readAhead (reader, readAhead.drop count,
        (⟨.ok (readAhead.take count).length, readAhead.take count, none⟩ : IoReturn V E)) :=
      .replayed (by simpa using hempty) (List.take_append_drop count readAhead).symm
    rwa [hlen] at hreplayed

theorem readVectoredPrefixed_spec {reader : Half N V} {readAhead : Bytes} {buffers : List Bytes} {i : I}
    {p : Half N V × Bytes × IoReturn V E} (h : readVectoredPrefixed A reader readAhead buffers i = some p) :
    PrefixRead reader readAhead p := by
  unfold readVectoredPrefixed at h
  split_ifs at h with hempty
  · exact prefixRead_of_read (List.isEmpty_iff.mp hempty) h
  · obtain ⟨filled, total, hfill, -, htotal, hbytes⟩ := fillSlices_spec buffers (Nat.zero_le readAhead.length)
    simp only [hfill, if_pos htotal] at h
    cases h
    have hlen : (readAhead.take total).length = total := by
      rw [List.length_take]
      omega
    have hset : setLen filled total = readAhead.take total := by
      simpa [setLen] using hbytes
    rw [hset]
    have hreplayed : PrefixRead reader readAhead (reader, readAhead.drop total,
        (⟨.ok (readAhead.take total).length, readAhead.take total, none⟩ : IoReturn V E)) :=
      .replayed (by simpa using hempty) (List.take_append_drop total readAhead).symm
    rwa [hlen] at hreplayed

theorem readInto_spec {reader : Half N V} {readAhead : Bytes} {target : ReadTarget} {i : I}
    {p : Half N V × Bytes × IoReturn V E} (h : readInto A reader readAhead target i = some p) :
    PrefixRead reader readAhead p := by
  cases target with
  | scalar buffer => exact readPrefixed_spec h
  | vectored buffers => exact readVectoredPrefixed_spec h

/-- Nothing underflows and no slice is out of bounds. -/
theorem readInto_isSome {reader : Half N V} (hreader : reader.isReader = true) (readAhead : Bytes)
    (target : ReadTarget) (i : I) : (readInto A reader readAhead target i).isSome = true := by
  cases target with
  | scalar buffer =>
    simp only [readInto, readPrefixed]
    split_ifs
    · simpa using Half.read_isSome hreader _ _
    · rfl
  | vectored buffers =>
    simp only [readInto, readVectoredPrefixed]
    split_ifs
    · simpa using Half.read_isSome hreader _ _
    · obtain ⟨filled, total, hfill, -, htotal, -⟩ := fillSlices_spec buffers (Nat.zero_le readAhead.length)
      simp [hfill, htotal]

end Reads

namespace UpgradedIo

variable {N V I E : Type}

def reader : UpgradedIo N V → Half N V
  | whole u => u.reader
  | split half _ => half.reader
  | parts reader _ _ _ => reader
  | halfParts reader _ _ => reader

def writer : UpgradedIo N V → Half N V
  | whole u => u.writer
  | split _ writer => writer
  | parts _ writer _ _ => writer
  | halfParts _ _ writer => writer

def readAhead : UpgradedIo N V → Bytes
  | whole u => u.readAhead
  | split half _ => half.readAhead
  | parts _ _ readAhead _ => readAhead
  | halfParts _ readAhead _ => readAhead

def kind? : UpgradedIo N V → Option UpgradeKind
  | whole u => some u.kind
  | parts _ _ _ kind => some kind
  | _ => none

def isOpen : UpgradedIo N V → Bool
  | whole _ => true
  | split _ _ => true
  | _ => false

abbrev Trace (N V I E : Type) := List (UpgradedCall N I × UpgradedOutput V E)

def returned (tr : Trace N V I E) : Bytes := (tr.filterMap fun x => x.2.read).flatMap IoReturn.bytes

/-- The reads that were submitted to the transport: its state after each, and what it read. -/
def submitted (tr : Trace N V I E) : List (V × Bytes) :=
  (tr.filterMap fun x => x.2.read).filterMap IoReturn.transport

def transported (tr : Trace N V I E) : Bytes := (submitted tr).flatMap Prod.snd

theorem returned_concat (tr : Trace N V I E) (c : UpgradedCall N I) (o : UpgradedOutput V E) :
    returned (tr ++ [(c, o)]) = returned tr ++ (o.read.map IoReturn.bytes).getD [] := by
  cases h : o.read <;> simp [returned, h]

theorem submitted_concat (tr : Trace N V I E) (c : UpgradedCall N I) (o : UpgradedOutput V E) :
    submitted (tr ++ [(c, o)]) = submitted tr ++ (o.read.bind IoReturn.transport).toList := by
  cases h : o.read with
  | none => simp [submitted, h]
  | some r => cases ht : r.transport <;> simp [submitted, h, ht]

/-- The wrapper has changed and nothing else. -/
structure Rewrapped (t t' : UpgradedIo N V) : Prop where
  reader : t'.reader.core = t.reader.core
  isReader : t'.reader.isReader = t.reader.isReader
  writer : t'.writer.core = t.writer.core
  readAhead : t'.readAhead = t.readAhead
  kind : ∀ k, t'.kind? = some k → t.kind? = some k

inductive Move : UpgradedIo N V → UpgradedCall N I → UpgradedIo N V → UpgradedOutput V E → Prop
  | whole {u : Upgraded N V} {reader : Half N V} {readAhead : Bytes} {target : ReadTarget} {i : I} {r : IoReturn V E}
      (h : PrefixRead u.reader u.readAhead (reader, readAhead, r)) :
      Move (.whole u) (.read target i) (.whole { u with reader := reader, readAhead := readAhead }) ⟨some r, false⟩
  | split {half : UpgradedReadHalf N V} {writer reader : Half N V} {readAhead : Bytes} {target : ReadTarget} {i : I}
      {r : IoReturn V E} (h : PrefixRead half.reader half.readAhead (reader, readAhead, r)) :
      Move (.split half writer) (.read target i) (.split ⟨reader, readAhead⟩ writer) ⟨some r, false⟩
  | rewrapped {t t' : UpgradedIo N V} {c : UpgradedCall N I} (h : Rewrapped t t') : Move t c t' .silent
  | refused {t : UpgradedIo N V} {reader writer : TypeId N} : Move t (.downcast reader writer) t ⟨none, true⟩

theorem downcast_cases [DecidableEq N] (reader writer : Half N V) (readAhead : Bytes) (kind : UpgradeKind)
    (r w : TypeId N) : Upgraded.downcast ⟨.boxedRead reader, .boxedWrite writer, readAhead, kind⟩ r w =
        .ok ⟨reader, writer, readAhead, kind⟩ ∨
      Upgraded.downcast ⟨.boxedRead reader, .boxedWrite writer, readAhead, kind⟩ r w =
        .error ⟨.boxedRead reader, .boxedWrite writer, readAhead, kind⟩ := by
  by_cases hmatch : reader.typeId = r ∧ writer.typeId = w
  · exact .inl (if_pos hmatch)
  · exact .inr (if_neg hmatch)

theorem move_of_step [DecidableEq N] {A : TransportRead V I E} {t t' : UpgradedIo N V} {c : UpgradedCall N I}
    {o : UpgradedOutput V E} (h : (upgradedIo A).step t c = some (t', o)) : Move t c t' o := by
  cases t with
  | whole u =>
    cases c with
    | read target i =>
      obtain ⟨⟨reader, readAhead, r⟩, hr, heq⟩ := Option.map_eq_some_iff.mp h
      cases heq
      exact .whole (readInto_spec hr)
    | boxed =>
      cases h
      exact .rewrapped ⟨rfl, rfl, rfl, rfl, fun _ => id⟩
    | downcast r w =>
      obtain ⟨reader, writer, readAhead, kind⟩ := u
      match reader, writer, h with
      | .boxedRead reader, .boxedWrite writer, h =>
        simp only [upgradedIo] at h
        rcases downcast_cases reader writer readAhead kind r w with heq | heq
        · simp only [heq] at h
          cases h
          exact .rewrapped ⟨rfl, rfl, rfl, rfl, fun _ => id⟩
        · simp only [heq] at h
          cases h
          exact .refused
    | intoSplit =>
      cases h
      exact .rewrapped ⟨rfl, rfl, rfl, rfl, fun _ hk => by cases hk⟩
    | intoParts =>
      cases h
      exact .rewrapped ⟨rfl, rfl, rfl, rfl, fun _ => id⟩
  | split half writer =>
    cases c with
    | read target i =>
      obtain ⟨⟨reader, readAhead, r⟩, hr, heq⟩ := Option.map_eq_some_iff.mp h
      cases heq
      exact .split (readInto_spec hr)
    | intoParts =>
      cases h
      exact .rewrapped ⟨rfl, rfl, rfl, rfl, fun _ hk => by cases hk⟩
    | _ => cases h
  | parts => cases c <;> cases h
  | halfParts => cases c <;> cases h

/-- What was read ahead has been returned up to what is left of it, and the transport is only read
when nothing is left. -/
structure Replayed (u : Upgraded N V) (tr : Trace N V I E) (t : UpgradedIo N V) : Prop where
  bytes : (t.readAhead = [] ∧ returned tr = u.readAhead ++ transported tr) ∨
    (submitted tr = [] ∧ returned tr ++ t.readAhead = u.readAhead)
  reader : t.reader.core = (u.reader.core.1, ((submitted tr).getLast?.map Prod.fst).getD u.reader.core.2)
  isReader : t.reader.isReader = u.reader.isReader
  writer : t.writer.core = u.writer.core
  kind : ∀ k, t.kind? = some k → k = u.kind

theorem Replayed.new (u : Upgraded N V) : Replayed u ([] : Trace N V I E) (.whole u) where
  bytes := .inr ⟨rfl, rfl⟩
  reader := rfl
  isReader := rfl
  writer := rfl
  kind _ hk := (Option.some.inj hk).symm

variable {u : Upgraded N V} {tr : Trace N V I E} {t t' : UpgradedIo N V}

theorem Replayed.stream (h : Replayed u tr t) : returned tr <+: u.readAhead ++ transported tr := by
  rcases h.bytes with ⟨-, heq⟩ | ⟨hnone, heq⟩
  · exact ⟨[], by rw [heq, List.append_nil]⟩
  · exact ⟨t.readAhead, by simp [heq, transported, hnone]⟩

theorem Replayed.returned_of_empty (h : Replayed u tr t) (hempty : t.readAhead = []) :
    returned tr = u.readAhead ++ transported tr := by
  rcases h.bytes with ⟨-, heq⟩ | ⟨hnone, heq⟩
  · exact heq
  · rw [hempty, List.append_nil] at heq
    simp [heq, transported, hnone]

theorem Replayed.returned_of_ne (h : Replayed u tr t) (hne : t.readAhead ≠ []) :
    submitted tr = [] ∧ returned tr ++ t.readAhead = u.readAhead :=
  h.bytes.resolve_left fun hempty => hne hempty.1

theorem Replayed.read (h : Replayed u tr t) {reader : Half N V} {readAhead : Bytes} {r : IoReturn V E}
    (hr : PrefixRead t.reader t.readAhead (reader, readAhead, r)) (hreader : t'.reader = reader)
    (hreadAhead : t'.readAhead = readAhead) (hwriter : t'.writer = t.writer) (hkind : t'.kind? = t.kind?)
    (c : UpgradedCall N I) : Replayed u (tr ++ [(c, ⟨some r, false⟩)]) t' := by
  have hk : ∀ k, t'.kind? = some k → k = u.kind := fun k hk => h.kind k (hkind ▸ hk)
  have hw : t'.writer.core = u.writer.core := by rw [hwriter, h.writer]
  cases hr with
  | @replayed taken rest hne heq =>
    obtain ⟨hnone, hleft⟩ := h.returned_of_ne hne
    refine ⟨.inr ⟨?_, ?_⟩, ?_, ?_, hw, hk⟩
    · simp [submitted_concat, hnone]
    · rw [hreadAhead, returned_concat, ← hleft, heq]
      simp
    · rw [hreader, h.reader]
      simp [submitted_concat]
    · rw [hreader, h.isReader]
  | @submitted reader' value r hempty hr hcore hisReader =>
    have heq := h.returned_of_empty hempty
    refine ⟨.inl ⟨hreadAhead, ?_⟩, ?_, ?_, hw, hk⟩
    · simp [returned_concat, transported, submitted_concat, hr, heq]
    · rw [hreader, hcore, h.reader]
      simp [submitted_concat, hr]
    · rw [hreader, hisReader, h.isReader]

theorem Replayed.quiet (h : Replayed u tr t) (hr : Rewrapped t t') (c : UpgradedCall N I) {o : UpgradedOutput V E}
    (ho : o.read = none) : Replayed u (tr ++ [(c, o)]) t' where
  bytes := by
    rw [hr.readAhead]
    simpa [returned_concat, transported, submitted_concat, ho] using h.bytes
  reader := by simpa [submitted_concat, ho, hr.reader] using h.reader
  isReader := hr.isReader.trans h.isReader
  writer := hr.writer.trans h.writer
  kind k hk := h.kind k (hr.kind k hk)

theorem Replayed.move (h : Replayed u tr t) {c : UpgradedCall N I} {o : UpgradedOutput V E} (hm : Move t c t' o) :
    Replayed u (tr ++ [(c, o)]) t' := by
  cases hm with
  | whole hr => refine h.read hr ?_ ?_ ?_ ?_ _ <;> rfl
  | split hr => refine h.read hr ?_ ?_ ?_ ?_ _ <;> rfl
  | rewrapped hr => exact h.quiet hr c rfl
  | refused => exact h.quiet ⟨rfl, rfl, rfl, rfl, fun _ => id⟩ _ rfl

theorem replayed_of_reaches [DecidableEq N] {A : TransportRead V I E}
    (hr : (upgradedIo A).Reaches (.whole u) tr t) : Replayed u tr t := by
  induction hr with
  | start => exact .new u
  | step _ hs ih => exact ih.move (move_of_step hs)

/-- What a read returned is the next part of what was read ahead, or all of that was returned before
and it is what the transport has read. -/
def Unmixed (readAhead : Bytes) (before : Trace N V I E) (r : IoReturn V E) : Prop :=
  match r.transport with
  | none => r.result = .ok r.bytes.length ∧ returned before ++ r.bytes <+: readAhead
  | some (_, bytes) => r.bytes = bytes ∧ returned before = readAhead ++ transported before

theorem Replayed.unmixed (h : Replayed u tr t) {c : UpgradedCall N I} {o : UpgradedOutput V E}
    (hm : Move t c t' o) {r : IoReturn V E} (ho : o.read = some r) : Unmixed u.readAhead tr r := by
  have key {reader : Half N V} {readAhead : Bytes} (hr : PrefixRead t.reader t.readAhead (reader, readAhead, r)) :
      Unmixed u.readAhead tr r := by
    cases hr with
    | @replayed taken rest hne heq =>
      refine ⟨rfl, ?_⟩
      rw [← (h.returned_of_ne hne).2, heq, ← List.append_assoc]
      exact List.prefix_append _ _
    | @submitted reader' value r hempty hr hcore hisReader =>
      rw [Unmixed, hr]
      exact ⟨rfl, h.returned_of_empty hempty⟩
  cases hm with
  | whole hr =>
    cases ho
    exact key hr
  | split hr =>
    cases ho
    exact key hr
  | rewrapped => cases ho
  | refused => cases ho

/-- Upgraded reads replay what was read ahead exactly, through erasure, downcasts and the split. -/
theorem replays_exactly [DecidableEq N] {A : TransportRead V I E}
    (hr : (upgradedIo A).Reaches (.whole u) tr t) :
    returned tr <+: u.readAhead ++ transported tr ∧ Replayed u tr t ∧
    (∀ before x after r, tr = before ++ x :: after → x.2.read = some r → Unmixed u.readAhead before r) ∧
    (∀ reader writer t' o, (upgradedIo A).step t (.downcast reader writer) = some (t', o) →
      o.refused = true → t' = t) ∧
    (∀ t' o, (upgradedIo A).step t .intoParts = some (t', o) →
      t'.reader = t.reader ∧ t'.writer = t.writer ∧ t'.readAhead = t.readAhead ∧ t'.kind? = t.kind?) ∧
    (u.reader.isReader = true → t.isOpen = true → ∀ target i,
      ((upgradedIo A).step t (.read target i)).isSome = true) := by
  have h := replayed_of_reaches hr
  refine ⟨h.stream, h, ?_, ?_, ?_, ?_⟩
  · rintro before ⟨c, o⟩ after r rfl ho
    obtain ⟨v, w, hbefore, hstep, -⟩ := hr.step_at
    exact (replayed_of_reaches hbefore).unmixed (move_of_step hstep) ho
  · intro reader writer t' o hs hrefused
    cases move_of_step hs with
    | rewrapped => cases hrefused
    | refused => rfl
  · intro t' o hs
    cases t with
    | whole u =>
      cases hs
      exact ⟨rfl, rfl, rfl, rfl⟩
    | split half writer =>
      cases hs
      exact ⟨rfl, rfl, rfl, rfl⟩
    | parts => cases hs
    | halfParts => cases hs
  · intro hreader hopen target i
    have hread := h.isReader.trans hreader
    cases t with
    | whole u' =>
      have hsome := readInto_isSome (A := A) (show u'.reader.isReader = true from hread) u'.readAhead target i
      simpa [upgradedIo] using hsome
    | split half writer =>
      have hsome := readInto_isSome (A := A) (show half.reader.isReader = true from hread) half.readAhead target i
      simpa [upgradedIo] using hsome
    | parts => cases hopen
    | halfParts => cases hopen

def bytesRead : TransportRead Bytes Unit Empty where
  read value target _ :=
    let capacity := match target with
      | .scalar buffer => buffer.length
      | .vectored buffers => buffers.flatten.length
    (value.drop capacity, .ok (min capacity value.length), value.take capacity)

/-- Two bytes are read, then the transport is split, and the last read goes to the transport. -/
theorem replays_exactly_wire : ∃ (tr : Trace Unit Bytes Unit Empty) (t : UpgradedIo Unit Bytes),
    (upgradedIo bytesRead).run
      (.whole ⟨.named () (ascii "wire"), .named () [], ascii "prefix", .tunnel⟩)
      [.read (.scalar [0, 0]) (), .intoSplit, .read (.scalar []) (), .read (.vectored [[0], [], [0, 0, 0, 0]]) (),
        .read (.scalar [0, 0, 0, 0]) ()] = some (tr, t) ∧
      returned tr = ascii "prefixwire" ∧ returned tr <+: ascii "prefix" ++ transported tr := by
  have hrun : (upgradedIo bytesRead).run
    (.whole ⟨.named () (ascii "wire"), .named () [], ascii "prefix", .tunnel⟩)
    [.read (.scalar [0, 0]) (), .intoSplit, .read (.scalar []) (), .read (.vectored [[0], [], [0, 0, 0, 0]]) (),
      .read (.scalar [0, 0, 0, 0]) ()] = some (_, _) := rfl
  exact ⟨_, _, hrun, rfl, (replays_exactly (Machine.reaches_of_run hrun)).1⟩

end UpgradedIo

end Vakya
