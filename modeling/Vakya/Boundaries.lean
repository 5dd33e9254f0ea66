import Vakya.Steady
import Vakya.HeadEnd
import Vakya.Validation
import Mathlib.Data.List.ModifyLast

/-!
# Message boundaries of a pipelined connection

Requests that are sent one after another are handed to the service one after
another, whatever the reads look like. The buffer, the head parser and the body
decoder hand the same place in the stream to each other: what is retained at the
top of the loop begins with the head that was not read yet.
-/

namespace Vakya

open Library

variable {x : Crates} {W : Type}

/-! ## What is sent -/

/-- A request on the wire, and what it says. -/
structure SentRequest (x : Crates) where
  head : Bytes
  body : Bytes
  request : ValidatedRequestHead x
  payload : Bytes
  trailers : Option Headers

namespace SentRequest

variable {cfg : ServerConfig} {m : SentRequest x}

def bytes (m : SentRequest x) : Bytes := m.head ++ m.body

def reception (cfg : ServerConfig) (m : SentRequest x) (size : SizeHint) (trailers : TrailerHint) : Reception :=
  ⟨x, m.request.body, cfg.decode, size, trailers, cfg.maxRetained⟩

/-- The request is accepted by itself, and it fits: neither its head nor an unfinished line or
trailer block of its body fills the retained input. -/
structure Accepted (cfg : ServerConfig) (m : SentRequest x) : Prop where
  head_ok : ∃ head, (cfg.parser.parseSharedRequest x m.head).2 = .ok head ∧
    head.validateReceived = .ok m.request
  body_ok : ∃ fuel, Drive.run x false fuel (.start m.request.body cfg.decode [m.body]) =
    some ⟨.complete, m.payload, m.trailers, []⟩
  head_fits : m.head.length ≤ cfg.maxRetained
  body_fits : ∀ part p, part <+: m.body →
    ((framing x cfg.decode).run m.request.body.start part).ending = .more p → p.retained < cfg.maxRetained

end SentRequest

def stream (messages : List (SentRequest x)) : Bytes := messages.flatMap SentRequest.bytes

theorem stream_take_succ {messages : List (SentRequest x)} {k : ℕ} {m : SentRequest x}
    (h : messages[k]? = some m) :
    stream (messages.take (k + 1)) = stream (messages.take k) ++ (m.head ++ m.body) := by
  rw [List.take_add_one, h]
  simp [stream, SentRequest.bytes]

theorem stream_drop {messages : List (SentRequest x)} {k : ℕ} {m : SentRequest x}
    (h : messages[k]? = some m) :
    stream (messages.drop k) = m.head ++ (m.body ++ stream (messages.drop (k + 1))) := by
  obtain ⟨hk, rfl⟩ := List.getElem?_eq_some_iff.mp h
  rw [List.drop_eq_getElem_cons hk]
  simp only [stream, SentRequest.bytes, List.flatMap_cons, List.append_assoc]

theorem stream_split (messages : List (SentRequest x)) (k : ℕ) :
    stream messages = stream (messages.take k) ++ stream (messages.drop k) := by
  rw [stream, stream, stream, ← List.flatMap_append, List.take_append_drop]

theorem cut_cases {part first second : Bytes} (h : part <+: first ++ second) :
    (part <+: first ∧ part ≠ first) ∨ ∃ more, part = first ++ more ∧ more <+: second := by
  rcases List.prefix_or_prefix_of_prefix h (List.prefix_append first second) with hp | ⟨more, rfl⟩
  · by_cases heq : part = first
    · exact .inr ⟨[], by simp [heq], List.nil_prefix⟩
    · exact .inl ⟨hp, heq⟩
  · exact .inr ⟨more, rfl, (List.prefix_append_right_inj first).mp h⟩

/-! ## One request -/

theorem Drive.run_add {endsEof : Bool} {fuel : ℕ} {d : Drive} {r : DriveEnd}
    (h : Drive.run x endsEof fuel d = some r) (more : ℕ) : Drive.run x endsEof (fuel + more) d = some r := by
  induction fuel generalizing d with
  | zero => cases h
  | succ fuel ih =>
    rw [Nat.succ_add, Drive.run]
    rw [Drive.run] at h
    split
    · rename_i d' hturn
      rw [hturn] at h
      exact ih h
    · rename_i r' hturn
      rw [hturn] at h
      exact h

namespace SentRequest

variable {cfg : ServerConfig} {m : SentRequest x} {wire rest : Bytes}

namespace Accepted

theorem run_body (h : m.Accepted cfg) (hx : x.HeadersWithin) :
    ∃ charged, (framing x cfg.decode).run m.request.body.start m.body =
      ⟨m.payload, .done (m.trailers, charged) []⟩ := by
  obtain ⟨fuel, hfuel⟩ := h.body_ok
  let drive := Drive.start m.request.body cfg.decode [m.body]
  have hlong := Drive.run_add hfuel drive.turns
  have henough : drive.left.length + drive.pieces.length + 2 ≤ fuel + drive.turns := by
    simp only [Drive.turns]
    omega
  obtain ⟨r, hr, hverdict, hpayload, hdone⟩ := Drive.run_of_following hx false
    (Drive.following_start x m.request.body cfg.decode [m.body]) _ henough
  rw [hlong, Option.some.injEq] at hr
  subst hr
  simp only [List.flatten_cons, List.flatten_nil, List.append_nil] at hverdict hpayload hdone
  rcases hrun : (framing x cfg.decode).run m.request.body.start m.body with ⟨output, _ | ⟨⟨t, charged⟩, rest⟩ | _⟩
  · simp [hrun, summary] at hverdict
  · simp only [hrun, summary] at hpayload hdone
    obtain ⟨rfl, rfl⟩ := hdone trivial
    exact ⟨charged, by rw [hpayload]⟩
  · simp [hrun, summary] at hverdict

theorem run_beyond (h : m.Accepted cfg) (hx : x.HeadersWithin) (more : Bytes) :
    ∃ charged, (framing x cfg.decode).run m.request.body.start (m.body ++ more) =
      ⟨m.payload, .done (m.trailers, charged) more⟩ := by
  obtain ⟨charged, hrun⟩ := h.run_body hx
  exact ⟨charged, by simpa using Transducer.run_append_of_done _ hrun more⟩

theorem messageLength (h : m.Accepted cfg) :
    ∃ headers version, Vakya.messageLength headers version .none = .ok m.request.body := by
  obtain ⟨head, -, hvalid⟩ := h.head_ok
  exact ⟨_, _, RequestHead.messageLength_of_validateFor hvalid⟩

theorem fixed_lt (h : m.Accepted cfg) (n : ℕ) (hn : m.request.body = .fixed n) : n < wordSize := by
  obtain ⟨headers, version, hlen⟩ := h.messageLength
  exact ((mode_iff_framing hlen).2.1 n).mp hn |>.2.2.1

theorem not_untilEof (h : m.Accepted cfg) : m.request.body ≠ .untilEof := by
  obtain ⟨headers, version, hlen⟩ := h.messageLength
  exact (mode_iff_framing hlen).2.2.2

theorem fits (h : m.Accepted cfg) (hx : x.HeadersWithin) (hwire : wire <+: m.body ++ rest) (size : SizeHint)
    (trailers : TrailerHint) : (m.reception cfg size trailers).Fits wire := by
  rcases cut_cases hwire with ⟨hpart, -⟩ | ⟨more, rfl, -⟩
  · refine ⟨fun hfailed => ?_, fun p hp => h.body_fits wire p hpart hp⟩
    obtain ⟨charged, hrun⟩ := h.run_body hx
    obtain ⟨tail, htail⟩ := hpart
    rcases hwire' : (framing x cfg.decode).run m.request.body.start wire with ⟨output, ending⟩
    simp only [reception, hwire'] at hfailed
    rw [hfailed] at hwire'
    have := Transducer.run_append_of_failed _ hwire' tail
    simp [htail, hrun] at this
  · obtain ⟨charged, hrun⟩ := h.run_beyond hx more
    exact ⟨by simp [reception, hrun], by simp [reception, hrun]⟩

theorem complete (h : m.Accepted cfg) (hx : x.HeadersWithin) (hwire : wire <+: m.body ++ rest) {eof : Bool}
    {payload bytes : Bytes} {t : Option Headers}
    (hdone : DriveEnd.Agrees ⟨.complete, payload, t, bytes⟩
      (summary eof ((framing x cfg.decode).run m.request.body.start wire))) :
    wire = m.body ++ bytes ∧ payload = m.payload ∧ t = m.trailers := by
  obtain ⟨hverdict, hpayload, hends⟩ := hdone
  obtain ⟨ht, hrest⟩ := hends rfl
  obtain ⟨charged, hbody⟩ := h.run_body hx
  rcases cut_cases hwire with ⟨⟨tail, htail⟩, hne⟩ | ⟨more, rfl, -⟩
  · -- The body is not there yet, so its run over the wire is not over.
    rcases hrun : (framing x cfg.decode).run m.request.body.start wire with ⟨output, p | ⟨r, left⟩ | _⟩
    · have hending : ((framing x cfg.decode).run m.request.body.start wire).ending = .more p := by rw [hrun]
      have hplace : p.completeAtEof = m.request.body.start.completeAtEof := completeAtEof_run hending
      have hopen : m.request.body.start.completeAtEof = false := by
        have := h.not_untilEof
        cases hmode : m.request.body <;> simp_all [BodyMode.start, Place.completeAtEof]
      rw [hrun] at hverdict
      cases eof <;> simp [summary, hplace, hopen] at hverdict
    · have := Transducer.run_append_of_done _ hrun tail
      rw [htail, hbody] at this
      simp only [Transcript.mk.injEq, Ending.done.injEq, List.nil_eq, List.append_eq_nil_iff] at this
      rw [this.2.2.2, List.append_nil] at htail
      exact absurd htail hne
    · simp [hrun, summary] at hverdict
  · obtain ⟨charged', hrun⟩ := h.run_beyond hx more
    rw [hrun] at hpayload ht hrest
    simp only [summary] at hpayload ht hrest
    exact ⟨by rw [hrest], hpayload, ht⟩

theorem not_starved (h : m.Accepted cfg) (hx : x.HeadersWithin) {more : Bytes} {d : Drive} (hp : d.pieces = []) :
    ¬ d.Starved x m.request.body cfg.decode (m.body ++ more) := by
  rintro ⟨hfollow, p, hused, -⟩
  obtain ⟨charged, hrun⟩ := h.run_beyond hx more
  have := hfollow.run_eq
  rw [hrun] at this
  simp [Drive.left, hp, hused, Transcript.emit] at this

theorem parsed (h : m.Accepted cfg) : m.head.length ≤ cfg.head.maxBytes ∧
    ∃ request, x.parseRequest m.head cfg.head.maxHeaders = .ok (.complete m.head.length request) := by
  obtain ⟨head, hok, -⟩ := h.head_ok
  simp only [HeadParser.parseSharedRequest, HeadParser.parseWhole] at hok
  split_ifs at hok with hlen
  have hlimits : cfg.parser.limits = cfg.head := rfl
  refine ⟨by rw [← hlimits]; omega, ?_⟩
  split at hok
  · rename_i consumed request hparse
    split_ifs at hok with hall
    exact ⟨request, by rw [← hall]; exact hparse⟩
  · cases hok
  · cases hok

theorem scan_head (h : m.Accepted cfg) (hend : x.EndsAtEmptyLine) :
    HeadScan.scanFrom 0 .leading m.head = .complete m.head.length := by
  obtain ⟨-, request, hparse⟩ := h.parsed
  have hfound := HeadScan.found_eq_firstEmptyLine m.head
  rw [hend _ _ _ _ hparse] at hfound
  cases hs : HeadScan.scanFrom 0 .leading m.head with
  | scanning scanned line => simp [hs, HeadScan.found] at hfound
  | complete length =>
    simp only [hs, HeadScan.found, Option.some.injEq] at hfound
    rw [hfound]

theorem scan_stream (h : m.Accepted cfg) (hend : x.EndsAtEmptyLine) {part more : Bytes}
    (hpart : part <+: m.head ++ more) :
    (HeadScan.scanFrom 0 .leading part).found = if m.head <+: part then some m.head.length else none := by
  have hscan := h.scan_head hend
  rcases cut_cases hpart with ⟨⟨tail, htail⟩, hne⟩ | ⟨tail, rfl, -⟩
  · have hshort : ¬ m.head <+: part := by
      intro hle
      exact hne ((List.prefix_append part tail).trans (htail ▸ List.prefix_rfl) |>.eq_of_length_le hle.length_le)
    rw [if_neg hshort]
    cases hs : HeadScan.scanFrom 0 .leading part with
    | scanning scanned line => rfl
    | complete length =>
      -- It would end the scan of the whole head too early.
      have hle := (HeadScan.length_of_scanFrom hs).2
      rw [← htail, HeadScan.scanFrom_append, hs] at hscan
      simp only [HeadScan.resume, HeadScan.complete.injEq] at hscan
      have htail' : tail = [] := by
        apply List.eq_nil_of_length_eq_zero
        rw [List.length_append] at hscan
        omega
      rw [htail', List.append_nil] at htail
      exact absurd htail hne
  · rw [if_pos (List.prefix_append _ _), HeadScan.scanFrom_append, hscan]
    rfl

theorem no_body (h : m.Accepted cfg) (hx : x.HeadersWithin)
    {hmode : ∀ n, m.request.body = .fixed n → n < wordSize} (hnone : incoming m.request.body hmode = none) :
    m.body = [] ∧ m.payload = [] ∧ m.trailers = none := by
  have hstart : m.request.body.start = .fixed 0 := by
    generalize m.request.body = mode at hmode hnone
    match mode, hmode, hnone with
    | .none, _, _ | .fixed 0, _, _ => rfl
  obtain ⟨charged, hrun⟩ := h.run_body hx
  rw [hstart, run_fixed_zero] at hrun
  simp only [Transcript.mk.injEq, Ending.done.injEq, Prod.mk.injEq] at hrun
  exact ⟨hrun.2.2, hrun.1.symm, hrun.2.1.1.symm⟩

end Accepted

/-- What the service was given of a request: its head, and all of its body. -/
def Served (m : SentRequest x) (entry : RequestHead x × List BodyResult) : Prop :=
  entry.1 = m.request.head ∧ (∀ e, .error e ∉ entry.2) ∧
    ∃ ds, framesOf entry.2 = ds.map .data ++ m.trailers.toList.map .trailers ∧ payloadOf ds = m.payload

/-- What the service was given of a request so far: the beginning of its body. -/
def Serving (m : SentRequest x) (entry : RequestHead x × List BodyResult) : Prop :=
  entry.1 = m.request.head ∧ (∀ e, .error e ∉ entry.2) ∧ ∃ ds t, framesOf entry.2 = ds.map .data ++ t.toList.map .trailers ∧
    payloadOf ds <+: m.payload ∧
    ∀ headers, t = some headers → payloadOf ds = m.payload ∧ m.trailers = some headers

theorem Served.serving {entry : RequestHead x × List BodyResult} (h : m.Served entry) : m.Serving entry := by
  obtain ⟨hhead, herr, ds, hframes, hpayload⟩ := h
  exact ⟨hhead, herr, ds, m.trailers, hframes, hpayload ▸ List.prefix_rfl, fun headers hh => ⟨hpayload, hh⟩⟩

end SentRequest

/-! ## The server between its steps -/

/-- The connection's buffer, wherever it is, with what it retains. -/
structure ServerConfig.Holds (cfg : ServerConfig) (owner : BufferOwner) (bytes : Bytes) : Prop where
  sound : owner.Sound cfg.maxRetained
  prefers : owner.Prefers cfg.preferredRead
  retains : owner.bytes = some bytes

theorem ServerConfig.Holds.limit_pos {cfg : ServerConfig} {owner : BufferOwner} {bytes : Bytes}
    (h : cfg.Holds owner bytes) : 0 < cfg.maxRetained := by
  have hpos {b : RecvBuffer} (hb : b.Sound ∧ b.maxRetained = cfg.maxRetained) : 0 < cfg.maxRetained := by
    rw [← hb.2]
    exact hb.1.preferred_pos.trans_le hb.1.preferred_le
  have hsound := h.sound
  cases owner with
  | idle b => exact hpos hsound
  | reading b slice target => exact hpos hsound.1
  | readingManaged b target => exact hpos hsound.1
  | lost permit => cases h.retains

/-- A driver in the middle of a body, of which `wire` arrived. -/
def SentRequest.Driven (cfg : ServerConfig) (m : SentRequest x) (wire : Bytes) (rs : List BodyResult)
    (driver : Receiver W) : Prop :=
  ∃ hmode size trailers btr, incoming m.request.body hmode = some (size, trailers) ∧
    Receiver.Inv (m.reception cfg size trailers) wire btr driver ∧ driver.Steady cfg.preferredRead ∧
    driver.GivenUp btr ∧ rs = BodyPipe.results btr

namespace SentRequest.Driven

variable {cfg : ServerConfig} {m : SentRequest x} {wire rest : Bytes} {rs : List BodyResult} {driver : Receiver W}

theorem frames_or_complete (h : m.Driven cfg wire rs driver) (hm : m.Accepted cfg) :
    (∀ r ∈ rs, isFrame r = true) ∨ driver.point = .ended .complete := by
  obtain ⟨hmode, size, trailers, btr, hin, hinv, hsteady, hgiven, rfl⟩ := h
  by_cases hended : ∃ how, driver.point = .ended how
  · obtain ⟨how, hpoint⟩ := hended
    cases how with
    | failed e => exact absurd hpoint (hsteady.unbroken.2 e)
    | abandoned => exact .inl (hgiven hpoint)
    | complete => exact .inr hpoint
  · obtain ⟨hcore, hlive⟩ := hinv.core (fun how hpoint => hended ⟨how, hpoint⟩) hsteady.unbroken.1
    exact .inl (hcore.frames hlive hin hm.not_untilEof)

theorem complete (hx : x.HeadersWithin) (hm : m.Accepted cfg) (hwire : wire <+: m.body ++ rest)
    (h : m.Driven cfg wire rs driver) (hpoint : driver.point = .ended .complete) :
    ∃ b, driver.owner = .idle b ∧ cfg.Holds (.idle b) b.bytes ∧ wire = m.body ++ b.bytes ∧
      m.Served (m.request.head, rs) := by
  obtain ⟨hmode, size, trailers, btr, hin, hinv, hsteady, -, rfl⟩ := h
  simp only [Receiver.Inv, hpoint] at hinv
  obtain ⟨hended, hclosed⟩ := hinv
  obtain ⟨b, ds, t, hb, hsound, hmax, hframes, herr, hagrees⟩ :=
    (hclosed trivial).returned (R := m.reception cfg size trailers) hended hin hm.not_untilEof
  obtain ⟨hbytes, hpayload, rfl⟩ := hm.complete hx hwire hagrees
  have hprefers := hsteady.prefers
  rw [hb] at hprefers
  exact ⟨b, hb, ⟨⟨hsound, hmax⟩, hprefers, rfl⟩, hbytes, rfl, herr, ds, hframes, hpayload⟩

theorem serving (hx : x.HeadersWithin) (hm : m.Accepted cfg) (hwire : wire <+: m.body ++ rest)
    (h : m.Driven cfg wire rs driver) : m.Serving (m.request.head, rs) := by
  have hcases := h.frames_or_complete hm
  have hcomplete := h.complete hx hm hwire
  obtain ⟨hmode, size, trailers, btr, hin, hinv, -, -, rfl⟩ := h
  have horder := hinv.orderly
  obtain ⟨ds, t, hframes, hpay, htr⟩ :=
    horder.assigned.mono ((BodyPipe.framesOf_results horder.reach).1.trans horder.ordered)
  refine ⟨rfl, fun e he => ?_, ds, t, hframes, hpay.trans ?_, fun headers hh => ?_⟩
  · rcases hcases with hall | hpoint
    · simpa [isFrame] using hall _ he
    · obtain ⟨b, -, -, -, -, herr, -⟩ := hcomplete hpoint
      exact herr e he
  · obtain ⟨charged, hbody⟩ := hm.run_body hx
    rcases cut_cases hwire with ⟨⟨tail, htail⟩, -⟩ | ⟨more, rfl, -⟩
    · have := Transducer.output_prefix (framing x cfg.decode) m.request.body.start wire tail
      rwa [htail, hbody] at this
    · obtain ⟨charged', hrun⟩ := hm.run_beyond hx more
      simp [reception, hrun]
  · obtain ⟨charged, left, hrun⟩ := htr headers hh
    have hdone : DriveEnd.Agrees ⟨.complete, payloadOf ds, some headers, left⟩
        (summary false ((framing x cfg.decode).run m.request.body.start wire)) := by
      rw [show (framing x cfg.decode).run m.request.body.start wire = _ from hrun]
      exact ⟨rfl, rfl, fun _ => ⟨rfl, rfl⟩⟩
    obtain ⟨-, hpayload, htrailers⟩ := hm.complete hx hwire hdone
    exact ⟨hpayload, htrailers.symm⟩

theorem served (hx : x.HeadersWithin) (hm : m.Accepted cfg) (hwire : wire <+: m.body ++ rest)
    (h : m.Driven cfg wire rs driver) (hend : .ok none ∈ rs) : m.Served (m.request.head, rs) := by
  rcases h.frames_or_complete hm with hall | hpoint
  · simpa [isFrame] using hall _ hend
  · obtain ⟨b, -, -, -, hserved⟩ := h.complete hx hm hwire hpoint
    exact hserved

end SentRequest.Driven

/-- Where the body of a request stands. The driver has the buffer, if there is one. -/
def SentRequest.Receives (cfg : ServerConfig) (m : SentRequest x) (wire : Bytes) (rs : List BodyResult)
    (owner : BufferOwner) : RequestBody W → Prop
  | .empty => (∃ b, owner = .idle b) ∧ cfg.Holds owner wire ∧ m.Served (m.request.head, rs) ∧ m.body = []
  | .expecting driver => owner = .lost none ∧ m.Driven cfg wire rs driver ∧ driver.point = .demanding
  | .permitting driver => owner = .lost none ∧ m.Driven cfg wire rs driver ∧ driver.point = .top
  | .receiving driver => owner = .lost none ∧ m.Driven cfg wire rs driver

/-! ## An undisturbed connection -/

def ServerCall.endsTransport : ServerCall W → Bool
  | .poll p => Vakya.endsTransport p.completion
  | .receive (.poll p) => Vakya.endsTransport p.completion
  | _ => false

/-- Nobody cancels, no deadline passes, the transport does what it reports, and the service and
the writer settle every exchange so that it may be followed by another one. -/
def ServerCall.Orderly (cfg : ServerConfig) : ServerCall W → Prop
  | .poll p => p.stopping = false ∧ p.overflow = false ∧ p.expired = false ∧
      FaithfulRead cfg.preferredRead p.completion
  | .receive i => i.Undisturbed cfg.preferredRead
  | .permit result => result = .ok ()
  | .settled sent => ∃ policy, sent = .ok (policy, false) ∧ policy.finish .complete .complete = .ok .reusable
  | .releaseLease => True
  | .drop => False

namespace Server

/-- `k` requests are done, and the server stands in the stream behind them. -/
def Stands (cfg : ServerConfig) (messages : List (SentRequest x)) (arrived : Bytes) (k : ℕ)
    (s : Server x W) : Prop :=
  match s.phase with
  | .top => s.parser = cfg.parser ∧ List.Forall₂ SentRequest.Served (messages.take k) s.handed ∧
      ∃ b, s.owner = .idle b ∧ cfg.Holds s.owner b.bytes ∧ arrived = stream (messages.take k) ++ b.bytes
  | .reading stopped => stopped = false ∧ s.parser = { cfg.parser with scan := s.parser.scan } ∧
      List.Forall₂ SentRequest.Served (messages.take k) s.handed ∧
      ∃ bytes, cfg.Holds s.owner bytes ∧ s.parser.scan.Follows bytes ∧
        arrived = stream (messages.take k) ++ bytes
  | .exchanging head body => s.parser = cfg.parser ∧ ∃ m served rs wire, messages[k]? = some m ∧
      head = m.request ∧ s.handed = served ++ [(m.request.head, rs)] ∧
      List.Forall₂ SentRequest.Served (messages.take k) served ∧
      arrived = stream (messages.take k) ++ (m.head ++ wire) ∧ m.Receives cfg wire rs s.owner body
  | .ended how => ∃ served current, s.handed = served ++ current ∧
      List.Forall₂ SentRequest.Served (messages.take k) served ∧
      (how = .idle ∧ k = messages.length ∧ current = [] ∨
        how = .closed ∧ ∃ m entry, messages[k]? = some m ∧ current = [entry] ∧ m.Serving entry ∧
          ∀ r ∈ entry.2, isFrame r = true)

variable {cfg : ServerConfig} {messages : List (SentRequest x)} {arrived : Bytes} {k : ℕ} {s : Server x W}

/-! ## The head -/

theorem rest_within {bytes : Bytes} (hwithin : stream (messages.take k) ++ bytes <+: stream messages) :
    bytes <+: stream (messages.drop k) := by
  rw [stream_split messages k] at hwithin
  exact (List.prefix_append_right_inj _).mp hwithin

theorem head_cases (hend : x.EndsAtEmptyLine) (hsent : ∀ m ∈ messages, m.Accepted cfg) {bytes : Bytes}
    (hbytes : bytes <+: stream (messages.drop k)) :
    (∃ m more, messages[k]? = some m ∧ bytes = m.head ++ more) ∨
      ((HeadScan.scanFrom 0 .leading bytes).found = none ∧ bytes.length ≤ cfg.head.maxBytes ∧
        (bytes ≠ [] → bytes.length < cfg.maxRetained)) := by
  cases hk : messages[k]? with
  | none =>
    rw [List.getElem?_eq_none_iff] at hk
    rw [List.drop_of_length_le hk] at hbytes
    obtain rfl : bytes = [] := List.prefix_nil.mp hbytes
    exact .inr ⟨rfl, Nat.zero_le _, fun hne => absurd rfl hne⟩
  | some m =>
    have hm := hsent m (List.mem_of_getElem? hk)
    rw [stream_drop hk] at hbytes
    have hfound := hm.scan_stream hend hbytes
    rcases cut_cases hbytes with ⟨hpart, hne⟩ | ⟨more, rfl, -⟩
    · have hshort : bytes.length < m.head.length := by
        refine lt_of_le_of_ne hpart.length_le fun hlen => hne (hpart.eq_of_length hlen)
      have hmissing : ¬ m.head <+: bytes := fun hle => absurd hle.length_le (by omega)
      rw [if_neg hmissing] at hfound
      have hmax := hm.parsed.1
      have hfits := hm.head_fits
      exact .inr ⟨hfound, by omega, fun _ => by omega⟩
    · exact .inl ⟨m, more, rfl, rfl⟩

theorem headLen_eq {scan : HeadScan} {seen : Bytes} (more : Bytes) (hscan : scan.Follows seen)
    (hseen : seen.length ≤ cfg.head.maxBytes) :
    { cfg.parser with scan := scan }.headLen (seen ++ more) =
      let found := HeadScan.scanFrom 0 .leading ((seen ++ more).take cfg.head.maxBytes)
      match found.found with
      | some length => ({ cfg.parser with scan := found }, .ok (some length))
      | none =>
        if (seen ++ more).length > cfg.head.maxBytes then (cfg.parser, .error (.limit .bytes))
        else ({ cfg.parser with scan := found }, .ok none) := by
  have hpart : (seen ++ more).take (min (seen ++ more).length cfg.head.maxBytes) =
      seen ++ more.take (cfg.head.maxBytes - seen.length) := by
    rw [Nat.min_comm, ← List.take_eq_take_min, List.take_append, List.take_of_length_le hseen]
  have htake : (seen ++ more).take cfg.head.maxBytes = seen ++ more.take (cfg.head.maxBytes - seen.length) := by
    rw [List.take_append, List.take_of_length_le hseen]
  have hlimits : cfg.parser.limits = cfg.head := rfl
  simp only [HeadParser.headLen, HeadParser.parseInputLen, hlimits, hpart, htake, hscan.completeHead]
  cases (HeadScan.scanFrom 0 .leading (seen ++ more.take (cfg.head.maxBytes - seen.length))).found <;> rfl

theorem driven_new {m : SentRequest x} {hmode : ∀ n, m.request.body = .fixed n → n < wordSize} {size : SizeHint}
    {trailers : TrailerHint} (hin : incoming m.request.body hmode = some (size, trailers)) {b : RecvBuffer}
    (hb : cfg.Holds (.idle b) b.bytes) :
    m.Driven cfg b.bytes [] (.new b m.request.body cfg.decode size trailers : Receiver W) := by
  refine ⟨hmode, size, trailers, [], hin, ?_, ?_, ?_, rfl⟩
  · exact Receiver.inv_new (R := m.reception cfg size trailers) hb.sound.1 hb.sound.2
  · have hcalm : Receiver.Calm cfg.preferredRead (.new b m.request.body cfg.decode size trailers : Receiver W) :=
      ⟨Channel.sound_new, rfl, rfl, hb.prefers⟩
    exact hcalm.steady (by simp) (by simp) (by simp)
  · simp [Receiver.GivenUp, Receiver.new]

theorem driven_expecting {m : SentRequest x} {hmode : ∀ n, m.request.body = .fixed n → n < wordSize}
    {size : SizeHint} {trailers : TrailerHint}
    (hin : incoming m.request.body hmode = some (size, trailers)) {b : RecvBuffer}
    (hb : cfg.Holds (.idle b) b.bytes) :
    ∃ driver out, (.new b m.request.body cfg.decode size trailers : Receiver W).act (.producer .demand)
        (fun driver _ => driver.suspend .demanding) = some (driver, out) ∧
      m.Driven cfg b.bytes [] driver ∧ driver.point = .demanding := by
  have hinv : Receiver.Inv (m.reception cfg size trailers) b.bytes []
      (.new b m.request.body cfg.decode size trailers : Receiver W) :=
    Receiver.inv_new (R := m.reception cfg size trailers) hb.sound.1 hb.sound.2
  obtain ⟨hcore, -, b', hb'⟩ := hinv
  have hopen : (BodyDecoder.withLimits m.request.body cfg.decode).isComplete = false := by
    generalize m.request.body = mode at hmode hin
    match mode, hmode, hin with
    | .fixed (n + 1), _, _ | .chunked, _, _ | .untilEof, _, _ => rfl
  have hdemand : (Channel.new : BodyChannel W).step .demand =
      some ({ Channel.new with producing := some (.demand false) }, ⟨.quiet, none⟩) := rfl
  have hcore' := hcore.produce rfl hdemand rfl rfl rfl
  exact ⟨_, _, rfl, ⟨hmode, size, trailers, _, hin, ⟨hcore'.withPoint _, rfl, hopen, b', hb'⟩,
    ⟨⟨hcore'.sound, rfl, rfl, hb.prefers⟩, by simp, by simp, by simp⟩, by simp [Receiver.GivenUp], rfl⟩, rfl⟩

theorem exchange_stands (hx : x.HeadersWithin) {m : SentRequest x} (hm : m.Accepted cfg)
    (hk : messages[k]? = some m) {b : RecvBuffer} (hb : cfg.Holds (.idle b) b.bytes)
    (hparser : s.parser = cfg.parser) (hserved : List.Forall₂ SentRequest.Served (messages.take k) s.handed) :
    Stands cfg messages (stream (messages.take k) ++ (m.head ++ b.bytes)) k (s.exchange cfg b m.request) := by
  unfold exchange
  rw [dif_pos hm.fixed_lt]
  split
  · rename_i hnone
    obtain ⟨hbody, hpayload, htrailers⟩ := hm.no_body hx hnone
    refine ⟨hparser, m, s.handed, [], b.bytes, hk, rfl, rfl, hserved, rfl, ⟨b, rfl⟩, hb, ?_, hbody⟩
    exact ⟨rfl, by simp, [], by simp [framesOf, htrailers], by simp [payloadOf, hpayload]⟩
  · rename_i size trailers hin
    dsimp only
    split_ifs
    · obtain ⟨driver, out, hact, hdriven, hpoint⟩ := driven_expecting (W := W) hin hb
      rw [hact]
      exact ⟨hparser, m, s.handed, [], b.bytes, hk, rfl, rfl, hserved, rfl, rfl, hdriven, hpoint⟩
    · exact ⟨hparser, m, s.handed, [], b.bytes, hk, rfl, rfl, hserved, rfl, rfl, driven_new hin hb⟩

/-- A turn of the head loop hands over the next request, or waits for more of its head. -/
theorem scanHead_stands (hx : x.HeadersWithin) (hend : x.EndsAtEmptyLine)
    (hsent : ∀ m ∈ messages, m.Accepted cfg) {b : RecvBuffer} (hb : cfg.Holds (.idle b) b.bytes)
    (hparser : s.parser = { cfg.parser with scan := s.parser.scan })
    (hserved : List.Forall₂ SentRequest.Served (messages.take k) s.handed) {seen more : Bytes}
    (hbytes : b.bytes = seen ++ more) (hscan : s.parser.scan.Follows seen)
    (hwithin : stream (messages.take k) ++ b.bytes <+: stream messages) :
    Stands cfg messages (stream (messages.take k) ++ b.bytes) k (s.scanHead cfg b false) := by
  have hrest := rest_within hwithin
  have hseen : seen.length ≤ cfg.head.maxBytes := by
    have hpart : seen <+: stream (messages.drop k) := (hbytes ▸ List.prefix_append seen more).trans hrest
    rcases head_cases hend hsent hpart with ⟨m, tail, hk, rfl⟩ | ⟨-, hle, -⟩
    · have hm := hsent m (List.mem_of_getElem? hk)
      have hnone := hscan.2
      rw [hscan.1, HeadScan.scanFrom_append, hm.scan_head hend] at hnone
      cases hnone
    · exact hle
  have hlen := headLen_eq more hscan hseen
  rw [← hparser, ← hbytes] at hlen
  unfold scanHead
  rw [Bool.and_false, if_neg (by simp), hlen]
  rcases head_cases hend hsent hrest with ⟨m, tail, hk, htail⟩ | ⟨hnone, hle, -⟩
  · -- All of the head is there.
    have hm := hsent m (List.mem_of_getElem? hk)
    have hscan' : HeadScan.scanFrom 0 .leading (b.bytes.take cfg.head.maxBytes) = .complete m.head.length := by
      rw [htail, List.take_append, List.take_of_length_le hm.parsed.1, HeadScan.scanFrom_append,
        hm.scan_head hend]
      rfl
    have howned : b.Sound := hb.sound.1
    have hcount : m.head.length ≤ b.len := by
      have : m.head.length ≤ b.bytes.length := by simp [htail]
      exact this
    obtain ⟨hdrop, hsound, hframe⟩ := RecvBuffer.compact_advance_spec howned.toFits hcount
    have htake := RecvBuffer.takeSharedPrefix_eq howned.toFits hcount
    have hhead : b.bytes.take m.head.length = m.head := by simp [htail]
    have hleft : b.bytes.drop m.head.length = tail := by simp [htail]
    rw [hhead] at htake
    rw [hleft] at hdrop
    obtain ⟨head, hparse, hvalid⟩ := hm.head_ok
    have hparse' (scan : HeadScan) : { cfg.parser with scan := scan }.parseSharedRequest x m.head =
        (cfg.parser, .ok head) := by
      rw [← hparse]
      rfl
    simp only [hscan', HeadScan.found, htake, hparse', hvalid]
    have hb' : cfg.Holds (.idle (b.advance m.head.length).compactIfEmpty)
        (b.advance m.head.length).compactIfEmpty.bytes :=
      ⟨⟨hsound, hframe.2.1.trans hb.sound.2⟩, hframe.1.trans hb.prefers, rfl⟩
    have hstands := exchange_stands (s := { s with parser := cfg.parser }) hx hm hk hb' rfl hserved
    rw [hdrop, ← htail] at hstands
    exact hstands
  · have hall : b.bytes.take cfg.head.maxBytes = b.bytes := List.take_of_length_le hle
    simp only [hall, hnone, if_neg (not_lt.mpr hle)]
    exact ⟨rfl, rfl, hserved, b.bytes, hb, ⟨rfl, hnone⟩, rfl⟩

/-! ## Steps -/

variable {s' : Server x W} {out : Bytes}

theorem pollTop_stands (hx : x.HeadersWithin) (hend : x.EndsAtEmptyLine)
    (hsent : ∀ m ∈ messages, m.Accepted cfg) (h : Stands cfg messages arrived k s) (hphase : s.phase = .top)
    {p : ServerPoll} (hp : (ServerCall.poll p : ServerCall W).Orderly cfg) (hwithin : arrived <+: stream messages)
    (hs : s.pollTop cfg p = some (s', out)) : Stands cfg messages (arrived ++ out) k s' := by
  simp only [Stands, hphase] at h
  obtain ⟨hparser, hserved, b, hb, hholds, rfl⟩ := h
  obtain ⟨hstop, hover, hexpired, -⟩ := hp
  rw [hb] at hholds
  simp only [pollTop, hb, hstop, hover, hexpired, Bool.and_false, Bool.false_eq_true, if_false] at hs
  cases hs
  rw [List.append_nil]
  have hscan : s.parser.scan.Follows [] := by
    rw [hparser]
    exact HeadScan.follows_default
  exact scanHead_stands hx hend hsent hholds (by rw [hparser]) hserved rfl hscan hwithin

theorem all_done (hend : x.EndsAtEmptyLine) (hsent : ∀ m ∈ messages, m.Accepted cfg) (hk : k ≤ messages.length)
    {scan : HeadScan} {bytes : Bytes} (hscan : scan.Follows bytes)
    (hall : stream (messages.take k) ++ bytes = stream messages) : bytes = [] ∧ k = messages.length := by
  have hrest : bytes = stream (messages.drop k) := by
    rw [stream_split messages k] at hall
    exact List.append_cancel_left hall
  cases hm : messages[k]? with
  | none =>
    rw [List.getElem?_eq_none_iff] at hm
    rw [List.drop_of_length_le hm] at hrest
    exact ⟨hrest, by omega⟩
  | some m =>
    have hnone := hscan.2
    rw [hscan.1, hrest, stream_drop hm, HeadScan.scanFrom_append,
      (hsent m (List.mem_of_getElem? hm)).scan_head hend] at hnone
    cases hnone

theorem pollReading_stands (hx : x.HeadersWithin) (hend : x.EndsAtEmptyLine)
    (hsent : ∀ m ∈ messages, m.Accepted cfg) (hk : k ≤ messages.length) (h : Stands cfg messages arrived k s)
    {stopped : Bool} (hphase : s.phase = .reading stopped) {p : ServerPoll}
    (hp : (ServerCall.poll p : ServerCall W).Orderly cfg) (hwithin : arrived ++ out <+: stream messages)
    (heof : endsTransport p.completion = true → arrived = stream messages)
    (hs : s.pollReading cfg p stopped = some (s', out)) : Stands cfg messages (arrived ++ out) k s' := by
  simp only [Stands, hphase] at h
  obtain ⟨rfl, hparser, hserved, bytes, hholds, hscan, rfl⟩ := h
  obtain ⟨hstop, -, hexpired, hread⟩ := hp
  have hbefore : bytes <+: stream (messages.drop k) :=
    rest_within ((List.prefix_append _ out).trans hwithin)
  have hroom : bytes.length < cfg.maxRetained := by
    by_cases hnil : bytes = []
    · rw [hnil]
      exact hholds.limit_pos
    · rcases head_cases hend hsent hbefore with ⟨m, more, hm, rfl⟩ | ⟨-, -, hlt⟩
      · have hnone := hscan.2
        rw [hscan.1, HeadScan.scanFrom_append, (hsent m (List.mem_of_getElem? hm)).scan_head hend] at hnone
        cases hnone
      · exact hlt hnil
  have hspec := Receiver.pollRead_spec hholds.sound hholds.retains cfg.heads false p.completion
  have hopen : false = true → ∀ b, s.owner ≠ .idle b := by simp
  have hclean := BufferOwner.pollRead_undisturbed hholds.sound hholds.retains hholds.prefers hroom cfg.heads
    hopen hread
  simp only [pollReading, hstop, Bool.or_self] at hs
  split at hs
  · cases hs
  · cases hs
  · -- The read goes on.
    rename_i owner heq
    rw [heq] at hspec hclean
    cases hs
    rw [List.append_nil]
    exact ⟨rfl, hparser, hserved, bytes, ⟨hspec.1, hclean.1, hspec.2⟩, hscan, rfl⟩
  · rename_i b result heq
    rw [heq] at hspec hclean
    obtain ⟨hsound, hmax, w, hw, hnil⟩ := hspec
    obtain ⟨hprefers, hresult⟩ := hclean
    have harr : b.bytes.drop (s.owner.bytes.getD []).length = w := by simp [hholds.retains, hw]
    simp only [harr, Bool.false_eq_true, if_false] at hs
    rcases hresult with ⟨count, rfl⟩ | ⟨rfl, hends⟩
    · simp only [hexpired] at hs
      cases hs
      have hb : cfg.Holds (.idle b) b.bytes := ⟨⟨hsound, hmax⟩, hprefers, rfl⟩
      rw [List.append_assoc, ← hw]
      refine scanHead_stands (s := { s with owner := .idle b }) hx hend hsent hb hparser hserved hw hscan ?_
      rwa [List.append_assoc, ← hw] at hwithin
    · obtain rfl := hnil rfl
      obtain ⟨rfl, hlast⟩ := all_done hend hsent hk hscan (heof hends)
      rw [List.append_nil] at hw
      simp only [hw, if_true] at hs
      cases hs
      exact ⟨s.handed, [], by simp [finish], hserved, .inl ⟨rfl, hlast, rfl⟩⟩

theorem step_driven (hx : x.HeadersWithin) {m : SentRequest x} (hm : m.Accepted cfg) {wire rest : Bytes}
    (hwire : wire <+: m.body ++ rest) {rs : List BodyResult} {driver driver' : Receiver W}
    (h : m.Driven cfg wire rs driver) {i : ReceiveInput W} (hi : i.Undisturbed cfg.preferredRead)
    (heof : ∀ p, i = .poll p → endsTransport p.completion = true → ∃ more, wire = m.body ++ more)
    {out : ReceiveOutput W} (hs : driver.step x cfg.bodies i = some (driver', out)) :
    m.Driven cfg (wire ++ out.arrived) (rs ++ BodyPipe.results out.body) driver' := by
  obtain ⟨hmode, size, trailers, btr, hin, hinv, hsteady, hgiven, rfl⟩ := h
  have hfits := hm.fits hx hwire size trailers
  have hopen (p : DriverPoll W) (hp : i = .poll p) (canceled : Bool)
      (hpoint : driver.point = .reading canceled) : endsTransport p.completion = false := by
    -- A driver that waits for the transport does not have all of its body.
    by_contra hends
    obtain ⟨more, rfl⟩ := heof p hp (by simpa using hends)
    simp only [Receiver.Inv, hpoint] at hinv
    obtain ⟨ds, t, bytes, -, -, hstarved⟩ := hinv.1.drive
    exact hm.not_starved hx rfl hstarved
  obtain ⟨hnext, -⟩ := Receiver.Inv.step hx hinv hs
  exact ⟨hmode, size, trailers, btr ++ out.body, hin, hnext, hsteady.step hx hinv hfits hi hopen hs,
    hsteady.givenUp hx hinv hfits hin hm.not_untilEof hi hopen hgiven hs, by simp [BodyPipe.results]⟩

theorem step_point {driver driver' : Receiver W} {i : ReceiveInput W} {out : ReceiveOutput W}
    (hi : ∀ p, i ≠ .poll p) (hdrop : i ≠ .dropDriver) {rcfg : ReceiveConfig}
    (hs : driver.step x rcfg i = some (driver', out)) : driver'.point = driver.point := by
  cases i with
  | poll p => exact absurd rfl (hi p)
  | dropDriver => exact absurd rfl hdrop
  | body call =>
    simp only [Receiver.step] at hs
    split_ifs at hs
    simp only [Receiver.act] at hs
    split at hs
    · cases hs
    · cases hs
      rfl
  | releaseLease =>
    simp only [Receiver.step] at hs
    split at hs
    · cases hs
      rfl
    · cases hs

theorem pollExpecting_receives {m : SentRequest x} (hm : m.Accepted cfg) {wire : Bytes} {rs : List BodyResult} {driver driver' : Receiver W}
    (h : m.Driven cfg wire rs driver) (hpoint : driver.point = .demanding) {p : DriverPoll W}
    (hp : p.Undisturbed cfg.preferredRead) {out : ReceiveOutput W}
    (hs : RequestBody.pollExpecting p driver = some (driver', out)) :
    m.Receives cfg (wire ++ out.arrived) (rs ++ BodyPipe.results out.body) (.lost none)
      (RequestBody.expected driver') := by
  obtain ⟨hmode, size, trailers, btr, hin, hinv, hsteady, -, rfl⟩ := h
  obtain ⟨hinv', href⟩ := (RequestBody.pollExpecting_post hinv hpoint).step hs
  obtain ⟨⟨hsteady', hpoint'⟩, hquiet⟩ := RequestBody.pollExpecting_leads hsteady.toCalm hp driver' out hs href
  have happ : BodyPipe.results (btr ++ out.body) = BodyPipe.results btr ++ BodyPipe.results out.body := by
    simp [BodyPipe.results]
  obtain ⟨hcore, hlive⟩ := hinv.core (by simp [hpoint]) (by simp [hpoint])
  have hgiven : driver'.GivenUp (btr ++ out.body) := by
    intro _
    rw [happ, hquiet, List.append_nil]
    exact hcore.frames hlive hin hm.not_untilEof
  have hdriven : m.Driven cfg (wire ++ out.arrived) (BodyPipe.results btr ++ BodyPipe.results out.body) driver' :=
    ⟨hmode, size, trailers, btr ++ out.body, hin, hinv', hsteady', hgiven, happ.symm⟩
  rcases hpoint' with hd | ht | ⟨how, he⟩
  · simp only [RequestBody.expected, hd]
    exact ⟨rfl, hdriven, hd⟩
  · simp only [RequestBody.expected, ht]
    exact ⟨rfl, hdriven, ht⟩
  · simp only [RequestBody.expected, he]
    exact ⟨rfl, hdriven⟩

theorem step_receives (hx : x.HeadersWithin) {m : SentRequest x} (hm : m.Accepted cfg) {wire rest : Bytes}
    (hwire : wire <+: m.body ++ rest) {rs : List BodyResult} {owner : BufferOwner} {body body' : RequestBody W}
    (h : m.Receives cfg wire rs owner body) {i : ReceiveInput W} (hi : i.Undisturbed cfg.preferredRead)
    (heof : ∀ p, i = .poll p → endsTransport p.completion = true → ∃ more, wire = m.body ++ more)
    {out : ReceiveOutput W} (hs : body.step x cfg.bodies i = some (body', out)) :
    m.Receives cfg (wire ++ out.arrived) (rs ++ BodyPipe.results out.body) owner body' := by
  have hdrop : i ≠ .dropDriver := by
    rintro rfl
    exact hi
  cases body with
  | empty => simp [RequestBody.step] at hs
  | receiving driver =>
    obtain ⟨rfl, hdriven⟩ := h
    have hs' : (driver.step x cfg.bodies i).map (Prod.map RequestBody.receiving id) = some (body', out) := by
      cases i <;> first | exact hs | exact absurd rfl hdrop
    obtain ⟨⟨driver', out'⟩, hstep, heq⟩ := Option.map_eq_some_iff.mp hs'
    cases heq
    exact ⟨rfl, step_driven hx hm hwire hdriven hi heof hstep⟩
  | permitting driver =>
    obtain ⟨rfl, hdriven, hpoint⟩ := h
    have hpoll : ∀ p, i ≠ .poll p := by
      rintro p rfl
      cases hs
    have hs' : (driver.step x cfg.bodies i).map (Prod.map RequestBody.permitting id) = some (body', out) := by
      cases i <;> first | exact hs | exact absurd rfl hdrop | exact absurd rfl (hpoll _)
    obtain ⟨⟨driver', out'⟩, hstep, heq⟩ := Option.map_eq_some_iff.mp hs'
    cases heq
    exact ⟨rfl, step_driven hx hm hwire hdriven hi heof hstep, (step_point hpoll hdrop hstep).trans hpoint⟩
  | expecting driver =>
    obtain ⟨rfl, hdriven, hpoint⟩ := h
    by_cases hpoll : ∃ p, i = .poll p
    · obtain ⟨p, rfl⟩ := hpoll
      obtain ⟨⟨driver', out'⟩, hstep, heq⟩ := Option.map_eq_some_iff.mp hs
      cases heq
      exact pollExpecting_receives hm hdriven hpoint hi hstep
    · have hpoll' : ∀ p, i ≠ .poll p := fun p hp => hpoll ⟨p, hp⟩
      have hs' : (driver.step x cfg.bodies i).map (Prod.map RequestBody.expecting id) = some (body', out) := by
        cases i <;> first | exact hs | exact absurd rfl hdrop | exact absurd rfl (hpoll' _)
      obtain ⟨⟨driver', out'⟩, hstep, heq⟩ := Option.map_eq_some_iff.mp hs'
      cases heq
      exact ⟨rfl, step_driven hx hm hwire hdriven hi heof hstep, (step_point hpoll' hdrop hstep).trans hpoint⟩

theorem receive_stands (hx : x.HeadersWithin) (hsent : ∀ m ∈ messages, m.Accepted cfg)
    (h : Stands cfg messages arrived k s) {i : ReceiveInput W} (hi : i.Undisturbed cfg.preferredRead)
    (hwithin : arrived ++ out <+: stream messages)
    (heof : (ServerCall.receive i).endsTransport = true → arrived = stream messages)
    (hs : s.step cfg (.receive i) = some (s', out)) : Stands cfg messages (arrived ++ out) k s' := by
  simp only [step] at hs
  split at hs
  · rename_i head body hphase
    simp only [Stands, hphase] at h
    obtain ⟨hparser, m, served, rs, wire, hk, hhead, hhanded, hserved, rfl, hbody⟩ := h
    obtain ⟨⟨body', o⟩, hstep, heq⟩ := Option.map_eq_some_iff.mp hs
    cases heq
    have hm := hsent m (List.mem_of_getElem? hk)
    have hlocal : m.head ++ wire <+: stream (messages.drop k) :=
      rest_within ((List.prefix_append _ o.arrived).trans hwithin)
    rw [stream_drop hk] at hlocal
    have hwire := (List.prefix_append_right_inj _).mp hlocal
    refine ⟨hparser, m, served, rs ++ BodyPipe.results o.body, wire ++ o.arrived, hk, hhead, ?_, hserved,
      by simp, ?_⟩
    · simp only [record, hhanded]
      exact List.modifyLast_concat _ _ _
    · refine step_receives hx hm hwire hbody hi (fun p hp hends => ?_) hstep
      -- The whole stream has arrived, so all of this body has.
      subst hp
      have hall := heof hends
      rw [stream_split messages k, stream_drop hk] at hall
      exact ⟨_, List.append_cancel_left (List.append_cancel_left hall)⟩
  · cases hs

theorem served_succ {m : SentRequest x} (hk : messages[k]? = some m)
    {served : List (RequestHead x × List BodyResult)}
    (hserved : List.Forall₂ SentRequest.Served (messages.take k) served)
    {entry : RequestHead x × List BodyResult} (hentry : m.Served entry) :
    List.Forall₂ SentRequest.Served (messages.take (k + 1)) (served ++ [entry]) := by
  rw [List.take_add_one, hk]
  exact List.rel_append hserved (.cons hentry .nil)

theorem settled_stands (hx : x.HeadersWithin) (hsent : ∀ m ∈ messages, m.Accepted cfg)
    (h : Stands cfg messages arrived k s) (hwithin : arrived <+: stream messages) {policy : ExchangePolicy}
    (hpolicy : policy.finish .complete .complete = .ok .reusable)
    (hs : s.step cfg (.settled (.ok (policy, false))) = some (s', out)) :
    out = [] ∧ (Stands cfg messages arrived k s' ∨ k < messages.length ∧ Stands cfg messages arrived (k + 1) s') := by
  have hretired : policy.finish .retired .complete = .ok .close := by simp [ExchangePolicy.finish]
  simp only [step] at hs
  split at hs
  · -- There was no body.
    rename_i head hphase
    simp only [Stands, hphase] at h
    obtain ⟨hparser, m, served, rs, wire, hk, hhead, hhanded, hserved, rfl, ⟨b, hb⟩, hholds, hdone, hempty⟩ := h
    simp only [settle, finishReceived, finishExchange, Bool.false_eq_true, if_false, hpolicy] at hs
    cases hs
    have hbytes : b.bytes = wire := by simpa [hb, BufferOwner.bytes] using hholds.retains
    refine ⟨rfl, .inr ⟨(List.getElem?_eq_some_iff.mp hk).1, hparser, ?_, b, hb, hbytes ▸ hholds, ?_⟩⟩
    · rw [hhanded]
      exact served_succ hk hserved hdone
    · rw [stream_take_succ hk, hempty, hbytes]
      simp
  · rename_i head driver hphase
    simp only [Stands, hphase] at h
    obtain ⟨hparser, m, served, rs, wire, hk, hhead, hhanded, hserved, rfl, -, hdriven⟩ := h
    have hm := hsent m (List.mem_of_getElem? hk)
    have hlocal := rest_within hwithin
    rw [stream_drop hk] at hlocal
    have hwire := (List.prefix_append_right_inj _).mp hlocal
    split at hs
    · rename_i how hpoint
      cases how with
      | complete =>
        obtain ⟨b, hb, hholds, rfl, hdone⟩ := hdriven.complete hx hm hwire hpoint
        simp only [settle, finishReceived, finishExchange, Bool.false_eq_true, if_false, hpolicy] at hs
        cases hs
        refine ⟨rfl, .inr ⟨(List.getElem?_eq_some_iff.mp hk).1, hparser, ?_, b, hb, ?_, ?_⟩⟩
        · rw [hhanded]
          exact served_succ hk hserved hdone
        · rw [hb]
          exact hholds
        · rw [stream_take_succ hk]
          simp
      | abandoned =>
        simp only [settle, finishReceived, finishExchange, Bool.false_eq_true, if_false, hretired] at hs
        cases hs
        have hserving := hdriven.serving hx hm hwire
        obtain ⟨hmode, size, trailers, btr, -, -, -, hgiven, rfl⟩ := hdriven
        exact ⟨rfl, .inl ⟨served, _, hhanded, hserved, .inr ⟨rfl, m, _, hk, rfl, hserving, hgiven hpoint⟩⟩⟩
      | failed e =>
        obtain ⟨hmode, size, trailers, btr, -, -, hsteady, -⟩ := hdriven
        exact absurd hpoint (hsteady.unbroken.2 e)
    · cases hs
  · cases hs

theorem release_holds {owner : BufferOwner} {bytes : Bytes} (h : cfg.Holds owner bytes) (granted : ℕ) :
    cfg.Holds (owner.setPermit ⟨false, granted⟩) bytes := by
  obtain ⟨hsound, hbytes, -⟩ := Receiving.setPermit_spec h.sound granted
  exact ⟨hsound, h.prefers.setPermit _, hbytes.trans h.retains⟩

theorem release_stands (h : Stands cfg messages arrived k s) (hs : s.step cfg .releaseLease = some (s', out)) :
    out = [] ∧ Stands cfg messages arrived k s' := by
  simp only [step] at hs
  split at hs
  · rename_i granted hpermit
    cases hs
    refine ⟨rfl, ?_⟩
    cases hphase : s.phase with
    | top =>
      simp only [Stands, hphase] at h ⊢
      obtain ⟨hparser, hserved, b, hb, hholds, harr⟩ := h
      exact ⟨hparser, hserved, { b with managedPermit := some ⟨false, granted⟩ }, by rw [hb]; rfl,
        release_holds hholds granted, harr⟩
    | reading stopped =>
      simp only [Stands, hphase] at h ⊢
      obtain ⟨hstopped, hparser, hserved, bytes, hholds, hrest⟩ := h
      exact ⟨hstopped, hparser, hserved, bytes, release_holds hholds granted, hrest⟩
    | exchanging head body =>
      simp only [Stands, hphase] at h ⊢
      obtain ⟨hparser, m, served, rs, wire, hk, hhead, hhanded, hserved, harr, hbody⟩ := h
      refine ⟨hparser, m, served, rs, wire, hk, hhead, hhanded, hserved, harr, ?_⟩
      cases body with
      | empty =>
        obtain ⟨⟨b, hb⟩, hholds, hrest⟩ := hbody
        exact ⟨⟨_, by rw [hb]; rfl⟩, release_holds hholds granted, hrest⟩
      | expecting driver | permitting driver | receiving driver =>
        simp [hbody.1, BufferOwner.permit] at hpermit
    | ended how =>
      simp only [Stands, hphase] at h ⊢
      exact h
  · cases hs

/-- Every step of an undisturbed connection. -/
theorem Stands.step (hx : x.HeadersWithin) (hend : x.EndsAtEmptyLine) (hsent : ∀ m ∈ messages, m.Accepted cfg)
    (hk : k ≤ messages.length) (h : Stands cfg messages arrived k s) {i : ServerCall W} (hi : i.Orderly cfg)
    (hwithin : arrived ++ out <+: stream messages) (heof : i.endsTransport = true → arrived = stream messages)
    (hs : s.step cfg i = some (s', out)) :
    ∃ k', k' ≤ messages.length ∧ Stands cfg messages (arrived ++ out) k' s' := by
  have hbefore := (List.prefix_append arrived out).trans hwithin
  cases i with
  | poll p =>
    refine ⟨k, hk, ?_⟩
    simp only [Server.step] at hs
    split at hs
    · rename_i hphase
      exact pollTop_stands hx hend hsent h hphase hi hbefore hs
    · rename_i stopped hphase
      exact pollReading_stands hx hend hsent hk h hphase hi hwithin heof hs
    · cases hs
  | receive i => exact ⟨k, hk, receive_stands hx hsent h hi hwithin heof hs⟩
  | permit result =>
    obtain rfl : result = .ok () := hi
    refine ⟨k, hk, ?_⟩
    simp only [Server.step] at hs
    split at hs
    · rename_i head driver hphase
      cases hs
      simp only [Stands, hphase, List.append_nil] at h ⊢
      obtain ⟨hparser, m, served, rs, wire, hk', hhead, hhanded, hserved, harr, howner, hdriven, -⟩ := h
      exact ⟨hparser, m, served, rs, wire, hk', hhead, hhanded, hserved, harr, howner, hdriven⟩
    · cases hs
  | settled sent =>
    obtain ⟨policy, rfl, hpolicy⟩ := hi
    obtain ⟨rfl, hsame | ⟨hlt, hnext⟩⟩ := settled_stands hx hsent h hbefore hpolicy hs
    · exact ⟨k, hk, by simpa using hsame⟩
    · exact ⟨k + 1, hlt, by simpa using hnext⟩
  | releaseLease =>
    obtain ⟨rfl, hsame⟩ := release_stands h hs
    exact ⟨k, hk, by simpa using hsame⟩
  | drop => exact hi.elim

end Server

/-! ## Whole runs -/

def receivedIn (tr : List (ServerCall W × Bytes)) : Bytes := tr.flatMap Prod.snd

/-- The transport delivers the stream in pieces, and it does not end before the stream does. -/
def CarriesStream (wire : Bytes) (tr : List (ServerCall W × Bytes)) : Prop :=
  receivedIn tr <+: wire ∧
    ∀ before y after, tr = before ++ y :: after → y.1.endsTransport = true → receivedIn before = wire

theorem CarriesStream.before {wire : Bytes} {tr : List (ServerCall W × Bytes)} {y : ServerCall W × Bytes}
    (h : CarriesStream wire (tr ++ [y])) : CarriesStream wire tr := by
  obtain ⟨hwithin, heof⟩ := h
  refine ⟨?_, fun before z after htr hz => heof before z (after ++ [y]) (by simp [htr]) hz⟩
  rw [receivedIn, List.flatMap_append] at hwithin
  exact (List.prefix_append _ _).trans hwithin

namespace Server

variable {cfg : ServerConfig} {messages : List (SentRequest x)}

theorem stands_new {s₀ : Server x W} (h : Server.new cfg = .ok s₀) : Stands cfg messages [] 0 s₀ := by
  unfold Server.new at h
  cases hb : RecvBuffer.new cfg.preferredRead cfg.maxRetained with
  | error e =>
    rw [hb] at h
    cases h
  | ok b =>
    rw [hb] at h
    cases h
    have hsound := (Receiving.inv_new hb).owner
    unfold RecvBuffer.new at hb
    split_ifs at hb
    cases hb
    exact ⟨rfl, .nil, _, rfl, ⟨hsound, rfl, rfl⟩, rfl⟩

theorem stands_of_reaches (hx : x.HeadersWithin) (hend : x.EndsAtEmptyLine)
    (hsent : ∀ m ∈ messages, m.Accepted cfg) {s₀ s : Server x W} (hnew : Server.new cfg = .ok s₀)
    {tr : List (ServerCall W × Bytes)} (h : (server x W cfg).Reaches s₀ tr s)
    (hcarries : CarriesStream (stream messages) tr) (horderly : ∀ y ∈ tr, y.1.Orderly cfg) :
    ∃ k, k ≤ messages.length ∧ Stands cfg messages (receivedIn tr) k s := by
  induction h with
  | start => exact ⟨0, Nat.zero_le _, stands_new hnew⟩
  | @step tr s s' i out _ hs ih =>
    obtain ⟨k, hk, hstands⟩ := ih hcarries.before fun y hy => horderly y (List.mem_append_left _ hy)
    have happ : receivedIn (tr ++ [(i, out)]) = receivedIn tr ++ out := by simp [receivedIn]
    have hwithin := hcarries.1
    rw [happ] at hwithin ⊢
    exact hstands.step hx hend hsent hk (horderly (i, out) (by simp)) hwithin
      (hcarries.2 tr (i, out) [] rfl) hs

def betweenRequests (s : Server x W) : Bool :=
  match s.phase with
  | .top | .reading _ => true
  | _ => false

/-- The loop, or the driver of a body, has nothing to do until the transport delivers or ends. -/
def awaitsTransport (s : Server x W) : Bool :=
  match s.phase with
  | .reading _ => true
  | .exchanging _ (.receiving driver) =>
    match driver.point with
    | .reading _ => true
    | _ => false
  | _ => false

variable {arrived : Bytes} {k : ℕ} {s : Server x W}

/-- What the service was handed: all of the requests that are done, and at most the beginning of
one more. -/
theorem Stands.handed (hx : x.HeadersWithin) (hsent : ∀ m ∈ messages, m.Accepted cfg)
    (hwithin : arrived <+: stream messages) (h : Stands cfg messages arrived k s) :
    ∃ served current, s.handed = served ++ current ∧
      List.Forall₂ SentRequest.Served (messages.take k) served ∧
      (current = [] ∨ ∃ m entry, messages[k]? = some m ∧ current = [entry] ∧ m.Serving entry ∧
        (.ok none ∈ entry.2 → m.Served entry)) ∧
      (s.betweenRequests = true → current = []) ∧
      ∀ how, s.phase = .ended how → how = .idle ∧ k = messages.length ∧ current = [] ∨
        how = .closed ∧ ∃ entry, current = [entry] ∧ ∀ r ∈ entry.2, isFrame r = true := by
  cases hphase : s.phase with
  | top =>
    simp only [Stands, hphase] at h
    exact ⟨s.handed, [], by simp, h.2.1, .inl rfl, fun _ => rfl, by simp⟩
  | reading stopped =>
    simp only [Stands, hphase] at h
    exact ⟨s.handed, [], by simp, h.2.2.1, .inl rfl, fun _ => rfl, by simp⟩
  | exchanging head body =>
    simp only [Stands, hphase] at h
    obtain ⟨-, m, served, rs, wire, hk, -, hhanded, hserved, rfl, hbody⟩ := h
    have hm := hsent m (List.mem_of_getElem? hk)
    have hlocal := rest_within hwithin
    rw [stream_drop hk] at hlocal
    have hwire := (List.prefix_append_right_inj _).mp hlocal
    have hcurrent : m.Serving (m.request.head, rs) ∧ (.ok none ∈ rs → m.Served (m.request.head, rs)) := by
      cases body with
      | empty =>
        obtain ⟨-, -, hdone, -⟩ := hbody
        exact ⟨hdone.serving, fun _ => hdone⟩
      | expecting driver | permitting driver =>
        obtain ⟨-, hdriven, -⟩ := hbody
        exact ⟨hdriven.serving hx hm hwire, hdriven.served hx hm hwire⟩
      | receiving driver =>
        obtain ⟨-, hdriven⟩ := hbody
        exact ⟨hdriven.serving hx hm hwire, hdriven.served hx hm hwire⟩
    exact ⟨served, _, hhanded, hserved, .inr ⟨m, _, hk, rfl, hcurrent⟩, by simp [betweenRequests, hphase], by simp⟩
  | ended how =>
    simp only [Stands, hphase] at h
    obtain ⟨served, current, hhanded, hserved, ⟨rfl, hk, rfl⟩ | ⟨rfl, m, entry, hk, rfl, hentry, hframes⟩⟩ := h
    · exact ⟨served, [], hhanded, hserved, .inl rfl, by simp, fun how hhow => by cases hhow; exact .inl ⟨rfl, hk, rfl⟩⟩
    · refine ⟨served, [entry], hhanded, hserved, .inr ⟨m, entry, hk, rfl, hentry, fun hmem => ?_⟩,
        by simp [betweenRequests, hphase], fun how hhow => by cases hhow; exact .inr ⟨rfl, entry, rfl, hframes⟩⟩
      simpa [isFrame] using hframes _ hmem

theorem Stands.exhausted (hx : x.HeadersWithin) (hend : x.EndsAtEmptyLine)
    (hsent : ∀ m ∈ messages, m.Accepted cfg) (hk : k ≤ messages.length)
    (h : Stands cfg messages (stream messages) k s) (hwait : s.awaitsTransport = true) :
    k = messages.length ∧ s.betweenRequests = true := by
  unfold awaitsTransport at hwait
  split at hwait
  · rename_i stopped hphase
    simp only [Stands, hphase] at h
    obtain ⟨-, -, -, bytes, -, hscan, hall⟩ := h
    exact ⟨(all_done hend hsent hk hscan hall.symm).2, by simp [betweenRequests, hphase]⟩
  · rename_i head driver hphase
    simp only [Stands, hphase] at h
    obtain ⟨-, m, served, rs, wire, hm, -, -, -, hall, -, hdriven⟩ := h
    split at hwait
    · rename_i canceled hpoint
      -- The driver has all of its body, and more of the stream behind it.
      rw [stream_split messages k, stream_drop hm] at hall
      obtain rfl := List.append_cancel_left (List.append_cancel_left hall)
      obtain ⟨hmode, size, trailers, btr, -, hinv, -⟩ := hdriven
      simp only [Receiver.Inv, hpoint] at hinv
      obtain ⟨ds, t, bytes, -, -, hstarved⟩ := hinv.1.drive
      exact absurd hstarved ((hsent m (List.mem_of_getElem? hm)).not_starved hx rfl)
    · cases hwait
  · cases hwait

theorem Stands.retained (h : Stands cfg messages arrived k s) (hbetween : s.betweenRequests = true) :
    ∃ bytes, s.owner.bytes = some bytes ∧ arrived = stream (messages.take k) ++ bytes := by
  unfold betweenRequests at hbetween
  split at hbetween
  · rename_i hphase
    simp only [Stands, hphase] at h
    obtain ⟨-, -, b, -, hholds, harr⟩ := h
    exact ⟨b.bytes, hholds.retains, harr⟩
  · rename_i stopped hphase
    simp only [Stands, hphase] at h
    obtain ⟨-, -, -, bytes, hholds, -, harr⟩ := h
    exact ⟨bytes, hholds.retains, harr⟩
  · cases hbetween

end Server

open Server

/-- Message boundaries. Requests that are accepted one by one and fit the limits are sent one
after another, and the transport delivers their bytes in any pieces. At every step the service
was handed the first `k` of them, each with its head, payload and trailers, and at most the
beginning of the next one, which is all of it once the service was told of its end. Between two
requests the connection retains exactly what arrived behind the first `k`. When all of the stream
arrived and the server waits for more, it has handed over every request. It ends only so, or
because a body was given up before its end. -/
theorem pipelined_boundaries {cfg : ServerConfig} {messages : List (SentRequest x)} (hx : x.HeadersWithin)
    (hend : x.EndsAtEmptyLine) (hsent : ∀ m ∈ messages, m.Accepted cfg) {s₀ s : Server x W}
    (hnew : Server.new cfg = .ok s₀) {tr : List (ServerCall W × Bytes)}
    (hrun : (server x W cfg).Reaches s₀ tr s) (hcarries : CarriesStream (stream messages) tr)
    (horderly : ∀ y ∈ tr, y.1.Orderly cfg) :
    ∃ k served current, k ≤ messages.length ∧ s.handed = served ++ current ∧
      List.Forall₂ SentRequest.Served (messages.take k) served ∧
      (current = [] ∨ ∃ m entry, messages[k]? = some m ∧ current = [entry] ∧ m.Serving entry ∧
        (.ok none ∈ entry.2 → m.Served entry)) ∧
      (s.betweenRequests = true → current = [] ∧
        ∃ bytes, s.owner.bytes = some bytes ∧ receivedIn tr = stream (messages.take k) ++ bytes) ∧
      (s.awaitsTransport = true → receivedIn tr = stream messages → k = messages.length ∧ current = []) ∧
      ∀ how, s.phase = .ended how → how = .idle ∧ k = messages.length ∧ current = [] ∨
        how = .closed ∧ ∃ entry, current = [entry] ∧ ∀ r ∈ entry.2, isFrame r = true := by
  obtain ⟨k, hk, hstands⟩ := stands_of_reaches hx hend hsent hnew hrun hcarries horderly
  obtain ⟨served, current, hhanded, hserved, hcurrent, hbetween, hended⟩ := hstands.handed hx hsent hcarries.1
  refine ⟨k, served, current, hk, hhanded, hserved, hcurrent, fun hb => ⟨hbetween hb, hstands.retained hb⟩, ?_,
    hended⟩
  intro hwait hall
  rw [hall] at hstands
  obtain ⟨hlast, hb⟩ := hstands.exhausted hx hend hsent hk hwait
  exact ⟨hlast, hbetween hb⟩

def sampleServer : ServerConfig := ⟨⟨64, 4, by decide, by decide⟩, false, .default, 48, 64, false, true, true⟩

def samplePut : Bytes := ascii "PUT / HTTP/1.1\r\nhost:a\r\ncontent-length:2\r\n\r\n"

def sampleGet : Bytes := ascii "GET / HTTP/1.1\r\nhost:a\r\n\r\n"

def sampleRequest (head : Bytes) : Option (ValidatedRequestHead reference) :=
  match (sampleServer.parser.parseSharedRequest reference head).2 with
  | .ok head => head.validateReceived.toOption
  | .error _ => none

theorem sampleRequest_eq_some {head : Bytes} {mode : BodyMode}
    (h : (sampleRequest head).map (·.body) = some mode) :
    ∃ request : ValidatedRequestHead reference, (∃ parsed,
      (sampleServer.parser.parseSharedRequest reference head).2 = .ok parsed ∧
        parsed.validateReceived = .ok request) ∧ request.body = mode := by
  obtain ⟨request, hrequest, hbody⟩ := Option.map_eq_some_iff.mp h
  unfold sampleRequest at hrequest
  split at hrequest
  · rename_i parsed hparsed
    cases hvalid : parsed.validateReceived with
    | error e => simp [hvalid, Except.toOption] at hrequest
    | ok v =>
      simp only [hvalid, Except.toOption, Option.some.injEq] at hrequest
      exact ⟨request, ⟨parsed, hparsed, by rw [← hrequest]; exact hvalid⟩, hbody⟩
  · cases hrequest

/-- The reads and the steps of a service that reads the upload to its end. -/
def sampleCalls (first second third : Bytes) : List (ServerCall Unit) :=
  let loop (completion : Option (Completion × Bool)) : ServerCall Unit := .poll ⟨false, false, false, completion⟩
  let drive (completion : Option (Completion × Bool)) : ServerCall Unit :=
    .receive (.poll ⟨(), false, false, completion⟩)
  let read (piece : Bytes) : Option (Completion × Bool) := some (.portable piece (.ok piece.length), false)
  let next : List (ServerCall Unit) := [.receive (.body .nextFrame), .receive (.body (.pollNext ()))]
  let dropped : ServerCall Unit := .receive (.body .dropNext)
  let done : ServerCall Unit := .settled (.ok (⟨.final, .reusable, .get, none, [], 0, 0⟩, false))
  [loop none, loop (read first), drive none] ++ next ++
    [drive none, drive none, .receive (.body (.pollNext ())), dropped, drive none] ++ next ++
    [drive none, drive none, drive (read second), drive none, drive none, drive none,
      .receive (.body (.pollNext ())), dropped, drive none, drive none] ++ next ++
    [dropped, done, loop none, loop (read third), done, loop none]

def sampleNew : Server reference Unit :=
  ⟨sampleServer.parser, .idle ⟨.portable (.withCapacity 48), none, 48, 64⟩, .top, []⟩

theorem sampleCalls_orderly (first second third : Bytes) :
    ∀ i ∈ sampleCalls first second third, i.Orderly sampleServer := by
  have hnone : FaithfulRead sampleServer.preferredRead none := by simp [FaithfulRead]
  have hread (piece : Bytes) :
      FaithfulRead sampleServer.preferredRead (some (.portable piece (.ok piece.length), false)) := by
    rintro c elapsed ⟨⟩
    exact ⟨rfl, rfl⟩
  have hpoll {completion : Option (Completion × Bool)} (h : FaithfulRead sampleServer.preferredRead completion) :
      DriverPoll.Undisturbed sampleServer.preferredRead ⟨(), false, false, completion⟩ := ⟨rfl, rfl, h⟩
  have hdone : (⟨.final, .reusable, .get, none, [], 0, 0⟩ : ExchangePolicy).finish .complete .complete =
      .ok .reusable := rfl
  simp [sampleCalls, hdone, ServerCall.Orderly, ReceiveInput.Undisturbed, hnone, hread, hpoll]

theorem sampleCalls_open {first second third : Bytes} (h1 : first ≠ []) (h2 : second ≠ []) (h3 : third ≠ []) :
    ∀ i ∈ sampleCalls first second third, i.endsTransport = false := by
  simp [sampleCalls, ServerCall.endsTransport, endsTransport, Completion.isEof, h1, h2, h3]

/-- An upload and a request without a body. The reads end inside the upload's body and inside
the second head. -/
theorem pipelined_boundaries_sample :
    ∃ messages : List (SentRequest reference), ∃ tr s,
      stream messages = samplePut ++ ascii "hi" ++ sampleGet ∧
      messages.map (fun m => (m.request.body, m.payload)) = [(.fixed 2, ascii "hi"), (.none, [])] ∧
      (server reference Unit sampleServer).Reaches sampleNew tr s ∧ s.awaitsTransport = true ∧
      List.Forall₂ SentRequest.Served messages s.handed := by
  have hputMode : (sampleRequest samplePut).map (·.body) = some (.fixed 2) := by decide +kernel
  have hgetMode : (sampleRequest sampleGet).map (·.body) = some .none := by decide +kernel
  obtain ⟨put, hput, hputBody⟩ := sampleRequest_eq_some hputMode
  obtain ⟨get, hget, hgetBody⟩ := sampleRequest_eq_some hgetMode
  let messages : List (SentRequest reference) :=
    [⟨samplePut, ascii "hi", put, ascii "hi", none⟩, ⟨sampleGet, [], get, [], none⟩]
  have hsent : ∀ m ∈ messages, m.Accepted sampleServer := by
    have hfits {n : ℕ} {mode : BodyMode} (hmode : mode.start = .fixed n) (part : Bytes) (p : Place)
        (hp : ((framing reference sampleServer.decode).run mode.start part).ending = .more p) :
        p.retained < sampleServer.maxRetained := by
      rw [hmode] at hp
      rcases run_fixed_cases reference sampleServer.decode n part with ⟨-, hrun⟩ | ⟨-, hrun⟩
      · simp [hrun] at hp
      · rw [hrun] at hp
        cases hp
        exact (by decide : 0 < sampleServer.maxRetained)
    have hput' : samplePut.length ≤ sampleServer.maxRetained := by decide
    have hget' : sampleGet.length ≤ sampleServer.maxRetained := by decide
    simp only [messages, List.forall_mem_cons]
    refine ⟨⟨hput, ?_, hput', fun part p _ => hfits (n := 2) (by rw [hputBody]; rfl) part p⟩,
      ⟨hget, ?_, hget', fun part p _ => hfits (n := 0) (by rw [hgetBody]; rfl) part p⟩, by simp⟩
    · rw [hputBody]
      exact ⟨3, by rfl⟩
    · rw [hgetBody]
      exact ⟨1, by rfl⟩
  have hevaluated : ((server reference Unit sampleServer).run sampleNew
      (sampleCalls (samplePut ++ ascii "h") (ascii "iGET /") (ascii " HTTP/1.1\r\nhost:a\r\n\r\n"))).any
      (fun (tr, s) => decide (receivedIn tr = samplePut ++ ascii "hi" ++ sampleGet) && s.awaitsTransport) = true := by
    decide +kernel
  obtain ⟨⟨tr, s⟩, hrun, htest⟩ := Option.any_eq_true _ _ |>.mp hevaluated
  simp only [Bool.and_eq_true, decide_eq_true_eq] at htest
  obtain ⟨hreceived, hwait⟩ := htest
  have hstream : stream messages = samplePut ++ ascii "hi" ++ sampleGet := by simp [messages, stream, SentRequest.bytes]
  have hinputs := Machine.run_inputs hrun
  have hcall {y : ServerCall Unit × Bytes} (hy : y ∈ tr) : y.1 ∈ sampleCalls _ _ _ :=
    hinputs ▸ List.mem_map_of_mem hy
  have hcarries : CarriesStream (stream messages) tr := by
    refine ⟨by rw [hreceived, hstream], fun before y after htr hends => ?_⟩
    have hopen := sampleCalls_open (by decide) (by decide) (by decide) y.1 (hcall (y := y) (by simp [htr]))
    simp [hopen] at hends
  have hreach := Machine.reaches_of_run hrun
  obtain ⟨k, served, current, -, hhanded, hserved, -, -, hall, -⟩ := pipelined_boundaries Reference.headersWithin
    Reference.endsAtEmptyLine hsent rfl hreach hcarries fun y hy => sampleCalls_orderly _ _ _ y.1 (hcall hy)
  obtain ⟨rfl, rfl⟩ := hall hwait (by rw [hreceived, hstream])
  rw [List.take_length] at hserved
  rw [List.append_nil] at hhanded
  refine ⟨messages, tr, s, hstream, by simp [messages, hputBody, hgetBody], hreach, hwait, ?_⟩
  rw [hhanded]
  exact hserved

end Vakya
