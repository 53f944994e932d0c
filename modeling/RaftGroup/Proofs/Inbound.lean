import RaftGroup.Proofs.Frames
import RaftGroup.Proofs.Stream
import RaftGroup.Transport.Station

namespace RaftGroup

namespace Resp

theorem encode_length_le_of_mem (h : v ∈ vs) : v.encode.length ≤ (encodeAll vs).length := by
  induction vs
  case nil          => cases h
  case cons w vs ih =>
    rw [encodeAll, List.length_append]
    obtain rfl | h := List.mem_cons.mp h
    case inl => exact Nat.le_add_right ..
    case inr => exact Nat.le_add_left_of_le (ih h)

theorem sendable_bulk (h : (bulk data).encode.length < 2 ^ 63) : (bulk data).Sendable levels := by
  simp only [encode, List.length_append] at h
  exact .bulk (by omega)

theorem sendable_array (h : (array vs).encode.length < 2 ^ 63)
    (hv : ∀ v ∈ vs, v.encode.length < 2 ^ 63 → v.Sendable levels) : (array vs).Sendable (levels + 1) := by
  simp only [encode, List.length_append] at h
  have hl : (encodeAll vs).length < 2 ^ 63 := by omega
  exact .array (Nat.lt_of_le_of_lt (length_le_encodeAll vs) hl) fun v hm =>
    hv v hm (Nat.lt_of_le_of_lt (encode_length_le_of_mem hm) hl)

end Resp

namespace Frame

open Resp

theorem Fields.toResp_sendable {f : Fields} (h : f.toResp.encode.length < 2 ^ 63)
    (hv : ∀ p ∈ f.values, p.2.encode.length < 2 ^ 63 → p.2.Sendable levels) : f.toResp.Sendable (levels + 1) := by
  refine sendable_array h fun v hm hl => ?_
  obtain ⟨p, hp, hm⟩ := List.mem_flatMap.mp hm
  obtain rfl | hm := List.mem_cons.mp hm
  case inl => exact sendable_bulk hl
  case inr => cases List.mem_singleton.mp hm; exact hv p hp hl

theorem entryFields_sendable (h : (entryFields e).toResp.encode.length < 2 ^ 63) :
    (entryFields e).toResp.Sendable (levels + 1) := by
  refine Fields.toResp_sendable h ?_
  simp only [entryFields, List.forall_mem_cons, List.not_mem_nil, false_imp_iff, implies_true, and_true]
  refine ⟨fun _ => .integer, fun _ => .integer, fun _ => .integer, fun hl => ?_⟩
  obtain ⟨data, hd⟩ := exists_encodePayload_eq e.payload
  rw [hd] at hl ⊢
  exact sendable_bulk hl

theorem bodyFields_sendable (h : (bodyFields m).toResp.encode.length < 2 ^ 63) :
    (bodyFields m).toResp.Sendable (levels + 3) := by
  refine Fields.toResp_sendable h ?_
  cases m with | mk term rpc =>
  cases rpc <;> simp only [bodyFields, List.forall_mem_cons, List.not_mem_nil, false_imp_iff, implies_true, and_true]
  case appendRequest r =>
    refine ⟨fun _ => .integer, sendable_bulk, fun _ => .integer, fun _ => .integer, fun _ => .integer, fun hl => ?_⟩
    refine sendable_array hl fun v hm hl => ?_
    obtain ⟨e, _, rfl⟩ := List.mem_map.mp hm
    exact entryFields_sendable hl
  case appendReply => exact ⟨fun _ => .integer, fun _ => .integer⟩
  case voteRequest => exact ⟨fun _ => .integer, sendable_bulk, fun _ => .integer, fun _ => .integer⟩
  case voteReply   => exact ⟨fun _ => .integer, fun _ => .integer⟩

theorem envelope_sendable {body : Fields} (h : (envelope name body).encode.length < 2 ^ 63)
    (hb : body.toResp.encode.length < 2 ^ 63 → body.toResp.Sendable levels) :
    (envelope name body).Sendable (levels + 1) := by
  refine Fields.toResp_sendable h ?_
  simp only [List.forall_mem_cons, List.not_mem_nil, false_imp_iff, implies_true, and_true]
  exact ⟨sendable_bulk, hb⟩

theorem encode_sendable {f : Frame} (h : f.toBytes.length < 2 ^ 63) : f.encode.Sendable maxDepth := by
  cases f
  case message m   => exact envelope_sendable h bodyFields_sendable
  case identity id =>
    refine envelope_sendable h fun hl => (Fields.toResp_sendable hl ?_ : Resp.Sendable 31 _)
    simp only [List.forall_mem_cons, List.not_mem_nil, false_imp_iff, implies_true, and_true]
    exact sendable_bulk

structure Fits (f : Frame) (limit : Nat) : Prop where
  numbers : ∀ n ∈ f.numbers, n < 2 ^ 63
  within  : f.toBytes.length ≤ limit
  size    : f.toBytes.length < 2 ^ 63

theorem encodeAll_map_encode (fs : List Frame) : encodeAll (fs.map encode) = fs.flatMap toBytes := by
  induction fs
  case nil          => rfl
  case cons f fs ih => rw [List.map_cons, encodeAll, ih]; rfl

end Frame

namespace Resp.Receiver

variable {r : Receiver} {vs : List Resp} {rest : Bytes} {limit : Nat}

theorem collectFor_eq (read : Resp → Except ε α) (hf : (collectFor (ε := Empty) .ok turns r).failure = none)
    (hr : List.Forall₂ (fun v a => read v = .ok a) (collectFor (ε := Empty) .ok turns r).items as) :
    collectFor read turns r = ⟨as, none, (collectFor (ε := Empty) .ok turns r).receiver⟩ := by
  induction turns generalizing r as
  case zero => cases hr; rfl
  case succ turns ih =>
    simp only [collectFor] at hf hr ⊢
    generalize r.parse = out at hf hr ⊢
    obtain ⟨outcome, r'⟩ := out
    cases outcome
    case error => cases hf
    case ok o  =>
      cases o
      case needMore => cases hr; rfl
      case value v  =>
        cases hr
        case cons a as ha hr => simp only [ha, ih hf hr]

theorem Yields.splits (h : Yields limit rest vs b) (hf : ∀ v ∈ vs, v.encode.length ≤ limit) :
    b.failure = none ∧ ∃ later, vs = b.items ++ later ∧ b.receiver.Awaits later rest ∧ b.receiver.limit = limit ∧
      b.receiver.buffer.length < ahead later := by
  induction h
  case all await same short        => exact ⟨rfl, _, rfl, await, same, short⟩
  case refused large               => exact absurd (hf _ List.mem_cons_self) (Nat.not_le.mpr large)
  case cons vs b v fits _ ih       =>
    obtain ⟨hn, later, hv, ha⟩ := ih fun w hw => hf w (List.mem_cons_of_mem _ hw)
    exact ⟨hn, later, by rw [List.cons_append, ← hv], ha⟩

end Resp.Receiver
namespace Reader

variable {r : Reader} {fs : List Frame}

theorem readFrame_receiver (r : Reader) (receiver : Resp.Receiver) (f : Frame) :
    ({ r with receiver } : Reader).readFrame f =
      (fun out => ({ out.1 with receiver }, out.2)) <$> r.readFrame f := by
  cases f <;> cases hp : r.peer <;> simp [readFrame, hp, Functor.map, Except.map]

theorem readFrames_receiver (r : Reader) (receiver : Resp.Receiver) (fs : List Frame) :
    ({ r with receiver } : Reader).readFrames fs =
      { r.readFrames fs with reader := { (r.readFrames fs).reader with receiver } } := by
  induction fs generalizing r
  case nil          => rfl
  case cons f fs ih =>
    rw [readFrames, readFrames, readFrame_receiver]
    cases r.readFrame f
    case error cause => rfl
    case ok out      => simp only [Functor.map, Except.map, ih]

theorem readFrames_append (r : Reader) (fs gs : List Frame) :
    r.readFrames (fs ++ gs) =
      match (r.readFrames fs).failure with
      | some _ => r.readFrames fs
      | none   =>
        let later := (r.readFrames fs).reader.readFrames gs
        { later with arrivals := (r.readFrames fs).arrivals ++ later.arrivals } := by
  induction fs generalizing r
  case nil          => rfl
  case cons f fs ih =>
    rw [List.cons_append, readFrames, readFrames]
    cases r.readFrame f
    case error cause => rfl
    case ok out      =>
      simp only [ih]
      split
      case h_1 => rfl
      case h_2 => rfl

def ownMessages : List Frame → List Message
  | .message m :: fs => m :: ownMessages fs
  | _                => []

theorem readFrames_of_peer (h : r.peer = some p) (fs : List Frame) :
    (r.readFrames fs).arrivals = (ownMessages fs).map (.message p) ∧ (r.readFrames fs).reader = r := by
  induction fs
  case nil          => exact ⟨rfl, rfl⟩
  case cons f fs ih =>
    cases f
    case identity  => simp [readFrames, readFrame, h, ownMessages]
    case message m => simp [readFrames, readFrame, h, ownMessages, ih]

-- Between two pieces, the frames that are still to come begin in the buffer, and none of them is there as a whole.
structure Expects (r : Reader) (fs : List Frame) (rest : Bytes) : Prop where
  awaits : r.receiver.Awaits (fs.map Frame.encode) rest
  short  : r.receiver.buffer.length < Resp.Receiver.ahead (fs.map Frame.encode)
  fits   : ∀ f ∈ fs, f.Fits r.receiver.limit

theorem Expects.feed (h : r.Expects fs (piece ++ rest)) (hl : 1 ≤ r.receiver.limit) :
    ∃ first later receiver, fs = first ++ later ∧ receiver.limit = r.receiver.limit ∧
      r.feed piece = ({ r with receiver } : Reader).readFrames first ∧
      ({ r with receiver } : Reader).Expects later rest := by
  have ha : (r.receiver.push piece).Awaits (fs.map Frame.encode) rest :=
    ⟨by simpa [Resp.Receiver.push] using h.awaits.bytes, h.awaits.bound, h.awaits.due⟩
  have hs : ∀ v ∈ fs.map Frame.encode, v.Sendable Resp.maxDepth :=
    List.forall_mem_map.mpr fun f hf => Frame.encode_sendable (h.fits f hf).size
  have hf : ∀ v ∈ fs.map Frame.encode, v.encode.length ≤ r.receiver.limit :=
    List.forall_mem_map.mpr fun f hf => (h.fits f hf).within
  obtain ⟨hn, later, hv, ha, hlim, hb⟩ := (ha.collectFor_yields hs hl (Nat.lt_succ_self _)).splits hf
  obtain ⟨first, later, rfl, hfirst, rfl⟩ := List.map_eq_append_iff.mp hv
  have hd : List.Forall₂ (fun v f => Frame.decode v = .ok f) (first.map Frame.encode) first := by
    refine List.forall₂_map_left_iff.mpr (List.forall₂_same.mpr fun f hf => ?_)
    exact Frame.decode_encode (h.fits f (List.mem_append_left _ hf)).numbers
  rw [hfirst] at hd
  have hc := Resp.Receiver.collectFor_eq Frame.decode hn hd
  refine ⟨first, later, _, rfl, hlim, ?_, ha, hb, ?_⟩
  case refine_1 => rw [Reader.feed, Resp.Receiver.collect, hc]; simp
  case refine_2 => exact fun f hf => hlim ▸ h.fits f (List.mem_append_right _ hf)

theorem readFrames_keeps (r : Reader) (fs : List Frame) : (r.readFrames fs).reader.receiver = r.receiver := by
  rw [show r.readFrames fs = _ from readFrames_receiver r r.receiver fs]

theorem Expects.feedAll {pieces : List Bytes} (h : r.Expects fs pieces.flatten) (hl : 1 ≤ r.receiver.limit) :
    ∃ receiver, r.feedAll pieces = ({ r with receiver } : Reader).readFrames fs := by
  induction pieces generalizing r fs
  case nil =>
    obtain rfl := List.map_eq_nil_iff.mp (h.awaits.eq_nil h.short).left
    exact ⟨r.receiver, rfl⟩
  case cons piece pieces ih =>
    obtain ⟨first, later, receiver, rfl, hlim, hf, he⟩ := h.feed hl
    rw [Reader.feedAll, hf]
    dsimp only
    split
    case h_1 hn => exact ⟨receiver, by rw [readFrames_append, hn]⟩
    case h_2 hn =>
      have hk := readFrames_keeps { r with receiver } first
      obtain ⟨receiver', hr⟩ := ih (r := (({ r with receiver } : Reader).readFrames first).reader)
        ⟨hk ▸ he.awaits, hk ▸ he.short, hk ▸ he.fits⟩ (by rw [hk]; exact hlim ▸ hl)
      have h₁ := readFrames_receiver r receiver first
      have h₂ := readFrames_receiver r receiver' first
      rw [h₁] at hn hr ⊢
      exact ⟨receiver', by rw [readFrames_append, h₂, hr]; simp only [show (r.readFrames first).failure = none from hn]⟩

theorem parse_of_empty {r : Resp.Receiver} (h : r.buffer = []) :
    ∃ r', r'.buffer = [] ∧ (r.parse = (.ok .needMore, r') ∨ ∃ e, r.parse = (.error e, r')) := by
  have hp : Resp.parse r.limit Resp.maxDepth r.buffer = .ok (.incomplete 1) := by rw [h]; rfl
  have hw (r : Resp.Receiver) : r.wait = .ok .needMore ∨ ∃ e, r.wait = .error e := by
    rw [Resp.Receiver.wait]
    split
    case isTrue  => exact .inr ⟨_, rfl⟩
    case isFalse => exact .inl rfl
  simp only [Resp.Receiver.parse, Resp.Receiver.parseAnew, hp]
  repeat' split
  case isTrue         => exact ⟨r, h, by simpa using hw r⟩
  case isFalse.isTrue => exact ⟨r, h, .inr ⟨_, rfl⟩⟩
  case isFalse.isFalse => exact ⟨{ r with need := 1 }, h, by simpa using hw { r with need := 1 }⟩

theorem feed_nil_of_empty (h : r.receiver.buffer = []) :
    (r.feed []).arrivals = [] ∧ (r.feed []).reader.peer = r.peer ∧ (r.feed []).reader.receiver.buffer = [] := by
  obtain ⟨r', hb, hp⟩ := parse_of_empty (r := r.receiver.push []) (by simpa [Resp.Receiver.push] using h)
  have hc : (r.receiver.push []).collect Frame.decode =
      Resp.Receiver.collectFor Frame.decode 1 (r.receiver.push []) := by
    simp [Resp.Receiver.collect, Resp.Receiver.push, h]
  rw [feed, hc, Resp.Receiver.collectFor]
  obtain hp | ⟨_, hp⟩ := hp
  case inl => rw [hp]; exact ⟨rfl, rfl, hb⟩
  case inr => rw [hp]; exact ⟨rfl, rfl, hb⟩

theorem feedAll_of_empty {pieces : List Bytes} (h : r.receiver.buffer = []) (hp : pieces.flatten = []) :
    (r.feedAll pieces).arrivals = [] ∧ (r.feedAll pieces).reader.peer = r.peer := by
  induction pieces generalizing r
  case nil                 => exact ⟨rfl, rfl⟩
  case cons piece pieces ih =>
    obtain ⟨rfl, hp⟩ := List.append_eq_nil_iff.mp hp
    obtain ⟨ha, hs, hb⟩ := feed_nil_of_empty h
    rw [feedAll]
    dsimp only
    split
    case h_1 => exact ⟨ha, hs⟩
    case h_2 =>
      obtain ⟨ha', hs'⟩ := ih hb hp
      exact ⟨by rw [ha, ha']; rfl, hs'.trans hs⟩

end Reader

inductive Report
  | control (c : Control)
  | dispatch (sender : Server) (m : Message)

namespace Reader

def report (connection : Nat) : Arrival → Report
  | .identified peer => .control (.identified peer connection)
  | .message peer m  => .dispatch peer m

def reports (r : Reader) (pieces : List Bytes) : List Report :=
  let reading := r.feedAll pieces
  reading.arrivals.map (report r.connection) ++ (reading.reader.closing.map Report.control).toList

variable {fs : List Frame} {pieces : List Bytes} {limit : Nat}

theorem inbound_expects (hf : ∀ f ∈ fs, f.Fits limit) (hp : pieces.flatten = fs.flatMap Frame.toBytes) (c : Nat) :
    (inbound c limit).Expects fs pieces.flatten where
  awaits := ⟨hp.trans (Frame.encodeAll_map_encode fs).symm, Nat.zero_le _, Nat.zero_le _⟩
  short  := Resp.Receiver.ahead_pos _
  fits   := hf

-- Frames that fit the limit are written to an accepted connection, their bytes arrive in any pieces, and then the other
-- side closes it. If the first frame names the peer, then that is reported once, then each message up to the next
-- frame that names a peer, or up to the end, once, in order and as the peer's, and at last that the connection has
-- been closed, once. If there is no frame or the first one is a message, nothing is reported.
theorem inbound_reports (hf : ∀ f ∈ fs, f.Fits limit) (hp : pieces.flatten = fs.flatMap Frame.toBytes) (c : Nat) :
    (inbound c limit).reports pieces =
      match fs with
      | .identity p :: fs =>
        .control (.identified (.peer p) c) :: ((ownMessages fs).map (.dispatch (.peer p)) ++
          [.control (.closed (.peer p) c .inbound)])
      | _ => [] := by
  by_cases hl : 1 ≤ limit
  case neg =>
    -- No frame is as short as that.
    have hn : fs = [] := List.eq_nil_iff_forall_not_mem.mpr fun f hm =>
      absurd (hf f hm).within (by have := Resp.encode_length_pos f.encode; rw [Frame.toBytes]; omega)
    subst hn
    obtain ⟨ha, hs⟩ := feedAll_of_empty (r := inbound c limit) rfl hp
    rw [reports, ha, closing, hs]
    rfl
  case pos =>
    obtain ⟨receiver, hr⟩ := (inbound_expects hf hp c).feedAll (r := inbound c limit) hl
    rw [reports, hr]
    match fs with
    | []                => rfl
    | .message m :: fs  => rfl
    | .identity p :: fs =>
      have ⟨ha, hs⟩ := readFrames_of_peer (r := { inbound c limit with receiver, peer := some (.peer p) }) rfl fs
      simp only [readFrames, readFrame, inbound] at ha hs ⊢
      rw [ha, hs]
      simp [report, closing, Function.comp_def]

def renamed : List Frame :=
  [.identity "b", .message ⟨1, .voteReply true⟩, .identity "c", .message ⟨2, .voteReply true⟩]

theorem inbound_reports_of_renamed :
    let pieces := (renamed.flatMap Frame.toBytes).map fun b => [b]
    (∀ f ∈ renamed, f.Fits 100) ∧ pieces.flatten = renamed.flatMap Frame.toBytes ∧
    (inbound 7 100).reports pieces =
      [.control (.identified (.peer "b") 7), .dispatch (.peer "b") ⟨1, .voteReply true⟩,
        .control (.closed (.peer "b") 7 .inbound)] := by
  intro pieces
  have hl : ∀ f ∈ renamed, (∀ n ∈ f.numbers, n < 2 ^ 63) ∧ f.toBytes.length ≤ 100 := by decide +kernel
  have hf (f) (hm : f ∈ renamed) : f.Fits 100 :=
    ⟨(hl f hm).left, (hl f hm).right, Nat.lt_of_le_of_lt (hl f hm).right (by decide)⟩
  have hp : pieces.flatten = renamed.flatMap Frame.toBytes := by decide +kernel
  exact ⟨hf, hp, inbound_reports hf hp 7⟩

theorem readFrames_connection (r : Reader) (fs : List Frame) : (r.readFrames fs).reader.connection = r.connection := by
  induction fs generalizing r
  case nil          => rfl
  case cons f fs ih =>
    rw [readFrames]
    cases hf : r.readFrame f
    case error cause => rfl
    case ok out      =>
      obtain ⟨r', arrival⟩ := out
      refine (ih r').trans ?_
      unfold readFrame at hf
      split at hf <;> cases hf <;> rfl

@[simp]
theorem feed_connection (r : Reader) (bytes : Bytes) : (r.feed bytes).reader.connection = r.connection :=
  readFrames_connection ..

theorem reports_cons (r : Reader) (piece : Bytes) (pieces : List Bytes) :
    r.reports (piece :: pieces) =
      (r.feed piece).arrivals.map (report r.connection) ++
        match (r.feed piece).failure with
        | some _ => ((r.feed piece).reader.closing.map Report.control).toList
        | none   => (r.feed piece).reader.reports pieces := by
  rw [reports, feedAll]
  dsimp only
  split <;> simp [reports, *]

end Reader

namespace Signal

def heard : Signal → Bool
  | .connected _ | .failed .. | .received .. => true
  | _                                        => false

end Signal

namespace Station

variable {s : Station} {c : Nat}

def heed (s : Station) : Report → Station × List Signal
  | .control c         => s.control c
  | .dispatch sender m => (s, s.dispatch sender m)

def heedAll (s : Station) : List Report → Station × List Signal
  | []      => (s, [])
  | r :: rs =>
    let (s, first) := s.heed r
    let (s, rest) := s.heedAll rs
    (s, first ++ rest)

def attend (s : Station) (c : Nat) : List Bytes → Station × List Signal
  | []              => s.ended c
  | piece :: pieces =>
    let (s, first) := s.arrive c piece
    let (s, rest) := s.attend c pieces
    (s, first ++ rest)

theorem heed_readers (s : Station) (readers : List Reader) (r : Report) :
    ({ s with readers } : Station).heed r = ({ (s.heed r).1 with readers }, (s.heed r).2) := by
  cases r <;> rfl

theorem heedAll_readers (s : Station) (readers : List Reader) (rs : List Report) :
    ({ s with readers } : Station).heedAll rs = ({ (s.heedAll rs).1 with readers }, (s.heedAll rs).2) := by
  induction rs generalizing s
  case nil          => rfl
  case cons r rs ih => simp only [heedAll, heed_readers, ih]

theorem heedAll_append (s : Station) (rs rs' : List Report) :
    s.heedAll (rs ++ rs') =
      (((s.heedAll rs).1.heedAll rs').1, (s.heedAll rs).2 ++ ((s.heedAll rs).1.heedAll rs').2) := by
  induction rs generalizing s
  case nil          => rfl
  case cons r rs ih => simp only [List.cons_append, heedAll, ih, List.append_assoc]

theorem heedAll_handlers (s : Station) (rs : List Report) : (s.heedAll rs).1.handlers = s.handlers := by
  induction rs generalizing s
  case nil          => rfl
  case cons r rs ih => rw [heedAll]; dsimp only; rw [ih]; cases r <;> rfl

theorem dispatch_congr {s' : Station} (h : s'.handlers = s.handlers) (sender : Server) (m : Message) :
    s'.dispatch sender m = s.dispatch sender m := by
  rw [dispatch, dispatch, has, has, h]

theorem welcome_eq (s : Station) (c : Nat) (as : List Arrival) :
    s.welcome c as = s.heedAll (as.map (Reader.report c)) := by
  induction as generalizing s
  case nil          => rfl
  case cons a as ih =>
    cases a
    case identified peer  => simp only [welcome, ih]; rfl
    case message sender m => simp only [welcome, ih, dispatch_congr (heedAll_handlers ..)]; rfl

theorem reader?_setReader {r r' : Reader} (h : s.reader? c = some r) (hc : r'.connection = c) :
    (s.setReader r').reader? c = some r' := by
  have hf : (fun q : Reader => decide (q.connection = c)) ∘
      (fun q => if q.connection = r'.connection then r' else q) = fun q => decide (q.connection = c) := by
    funext q
    by_cases hq : q.connection = c <;> simp [hc, hq]
  rw [reader?] at h
  have hr : r.connection = c := by simpa using List.find?_some h
  rw [setReader, reader?, List.find?_map, hf, h, Option.map_some, if_pos (hr.trans hc.symm)]

theorem reader?_finish (s : Station) (r : Reader) : (s.finish r).1.reader? r.connection = none := by
  have hf : (s.readers.filter fun q => q.connection ≠ r.connection).find? (·.connection = r.connection) = none := by
    simp
  rw [finish]
  dsimp only
  split <;> exact hf

theorem attend_of_none (h : s.reader? c = none) (pieces : List Bytes) : s.attend c pieces = (s, []) := by
  induction pieces
  case nil                  => rw [attend, ended, h]
  case cons piece pieces ih => simp only [attend, arrive, h, ih]; rfl

theorem finish_reports (s : Station) (r : Reader) :
    (s.finish r).1.links = (s.heedAll (r.closing.map Report.control).toList).1.links ∧
    (s.finish r).2.filter Signal.heard = (s.heedAll (r.closing.map Report.control).toList).2.filter Signal.heard := by
  rw [finish]
  cases r.closing
  case none      => exact ⟨rfl, rfl⟩
  case some last => simp only [Option.map_some, Option.toList_some, heedAll, List.append_nil]; exact ⟨rfl, rfl⟩

-- What is read from a connection changes the table, and reaches the handlers, as the reports on it say.
theorem attend_reports {r : Reader} (h : s.reader? c = some r) (pieces : List Bytes) :
    (s.attend c pieces).1.links = (s.heedAll (r.reports pieces)).1.links ∧
    (s.attend c pieces).2.filter Signal.heard = (s.heedAll (r.reports pieces)).2.filter Signal.heard := by
  have hr : r.connection = c := by simpa using List.find?_some h
  induction pieces generalizing s r
  case nil                  =>
    rw [attend, ended, h]
    exact finish_reports s r
  case cons piece pieces ih =>
    have hc : (r.feed piece).reader.connection = c := (r.feed_connection piece).trans hr
    have hs := reader?_setReader h hc
    obtain ⟨readers, hw⟩ : ∃ readers, s.setReader (r.feed piece).reader = { s with readers } := ⟨_, rfl⟩
    rw [attend, arrive, h, Reader.reports_cons, hr, heedAll_append]
    dsimp only
    rw [welcome_eq, hw, heedAll_readers]
    rw [hw] at hs
    generalize s.heedAll ((r.feed piece).arrivals.map (Reader.report c)) = first
    cases (r.feed piece).failure
    case none       =>
      have ⟨hl, hh⟩ := ih (s := { first.1 with readers }) hs hc
      rw [heedAll_readers] at hl hh
      refine ⟨hl, ?_⟩
      simp only [List.filter_append, hh]
    case some cause =>
      have ⟨hl, hh⟩ := finish_reports { first.1 with readers } (r.feed piece).reader
      have hn := reader?_finish { first.1 with readers } (r.feed piece).reader
      rw [hc] at hn
      rw [heedAll_readers] at hl hh
      rw [attend_of_none hn]
      refine ⟨hl, ?_⟩
      simp only [List.append_nil, List.filter_append, ← hh]
      rfl

end Station
end RaftGroup
