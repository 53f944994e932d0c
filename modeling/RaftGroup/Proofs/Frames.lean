import RaftGroup.Frame.Codec
import RaftGroup.Proofs.Base64
import RaftGroup.Proofs.Fields

namespace RaftGroup

theorem pure_eq_ok_iff {a b : α} : (pure a : Except ε α) = .ok b ↔ a = b := by
  simp [pure, Except.pure]

theorem mapM_eq_ok_iff {read : α → Except ε β} {vs : List α} {es : List β} :
    vs.mapM read = .ok es ↔ vs.Forall₂ (fun v e => read v = .ok e) es := by
  induction vs generalizing es
  case nil => rw [List.mapM_nil, pure_eq_ok_iff, List.forall₂_nil_left_iff, eq_comm]
  case cons v vs ih =>
    simp only [List.mapM_cons, bind_eq_ok_iff, pure_eq_ok_iff, ih]
    constructor
    case mp =>
      rintro ⟨e, he, es, hes, rfl⟩
      exact .cons he hes
    case mpr =>
      rintro (_ | ⟨he, hes⟩)
      exact ⟨_, he, _, hes, rfl⟩

def Entry.numbers (e : Entry) : List Nat :=
  [e.term, e.index]

def Rpc.numbers : Rpc → List Nat
  | appendRequest r => [r.prevIndex, r.prevTerm, r.commit] ++ r.entries.flatMap Entry.numbers
  | voteRequest r   => [r.lastIndex, r.lastTerm]
  | _               => []

namespace Frame

def numbers : Frame → List Nat
  | identity _ => []
  | message m  => m.term :: m.rpc.numbers

def ReorderedEntry : Resp → Resp → Prop :=
  Shuffled fun _ v w => v = w

def ReorderedBody : Resp → Resp → Prop :=
  Shuffled fun key v w =>
    if key = "entries" then ∃ vs ws, v = .array vs ∧ w = .array ws ∧ vs.Forall₂ ReorderedEntry ws else v = w

-- The envelope, the body and each entry may hold their keys in any order.
def Reordered : Resp → Resp → Prop :=
  Shuffled fun key v w => if key = "msg" then ReorderedBody v w else v = w

theorem nodup_entryKeys : entryKeys.Nodup := by decide

theorem nodup_bodyKeys (kind : Rpc.Kind) : (bodyKeys kind).Nodup := by
  cases kind <;> decide

theorem decodePayload_eq_ok_iff : decodePayload b data = .ok p ↔ b = p.isBinary ∧ .bulk data = encodePayload p := by
  cases b
  case false => cases p <;> simp [decodePayload, Payload.isBinary, encodePayload]
  case true =>
    cases p
    case text => cases h : Base64.decode data <;> simp [decodePayload, Payload.isBinary, h]
    case binary d =>
      rw [encodePayload, Resp.bulk.injEq, ← Base64.decode_eq_ok_iff]
      cases h : Base64.decode data <;> simp [decodePayload, Payload.isBinary, h]

theorem exists_encodePayload_eq (p : Payload) : ∃ data, encodePayload p = .bulk data := by
  cases p
  case text data   => exact ⟨data, rfl⟩
  case binary data => exact ⟨Base64.encode data, rfl⟩

theorem decodeEntry_eq_ok_iff :
    decodeEntry r = .ok e ↔ (∀ n ∈ e.numbers, n < 2 ^ 63) ∧ ReorderedEntry r (entryFields e).toResp := by
  have hk : (entryFields e).keys = entryKeys := rfl
  rw [ReorderedEntry, shuffled_iff hk nodup_entryKeys]
  simp only [decodeEntry, bind_eq_ok_iff, pure_eq_ok_iff, Fields.nat_eq_ok_iff, Fields.bool_eq_ok_iff,
    Fields.bytes_eq_ok_iff, decodePayload_eq_ok_iff, entryFields, List.forall_mem_cons, Entry.numbers, exists_eq_right,
    List.not_mem_nil, false_imp_iff, forall_const, and_true]
  constructor
  case mp =>
    rintro ⟨f, hf, t, ⟨ht, hT⟩, i, ⟨hi, hI⟩, b, hb, data, hd, p, ⟨rfl, hp⟩, rfl⟩
    exact ⟨⟨ht, hi⟩, f, hf, hT, hI, hb, hp ▸ hd⟩
  case mpr =>
    rintro ⟨⟨ht, hi⟩, f, hf, hT, hI, hb, hd⟩
    have ⟨data, hp⟩ := exists_encodePayload_eq e.payload
    exact ⟨f, hf, _, ⟨ht, hT⟩, _, ⟨hi, hI⟩, _, hb, data, hp ▸ hd, _, ⟨rfl, hp.symm⟩, rfl⟩

theorem mapM_decodeEntry_eq_ok_iff {vs : List Resp} {es : List Entry} :
    vs.mapM decodeEntry = .ok es ↔ (∀ n ∈ es.flatMap Entry.numbers, n < 2 ^ 63) ∧
      vs.Forall₂ ReorderedEntry (es.map fun e => (entryFields e).toResp) := by
  rw [mapM_eq_ok_iff, List.forall₂_map_right_iff]
  simp only [decodeEntry_eq_ok_iff]
  induction es generalizing vs
  case nil => simp
  case cons e es ih =>
    simp only [List.forall₂_cons_right_iff, ih, List.flatMap_cons, List.forall_mem_append]
    constructor
    case mp =>
      rintro ⟨v, vs, ⟨he, hv⟩, ⟨hes, hvs⟩, rfl⟩
      exact ⟨⟨he, hes⟩, v, vs, hv, hvs, rfl⟩
    case mpr =>
      rintro ⟨⟨he, hes⟩, v, vs, hv, hvs, rfl⟩
      exact ⟨v, vs, ⟨he, hv⟩, ⟨hes, hvs⟩, rfl⟩

theorem kind_of_decodeRpc (h : decodeRpc f kind = .ok rpc) : rpc.kind = kind := by
  cases kind
  case appendRequest =>
    simp only [decodeRpc, bind_eq_ok_iff, pure_eq_ok_iff] at h
    have ⟨_, _, _, _, _, _, _, _, _, _, _, _, h⟩ := h
    exact h ▸ rfl
  case appendReply =>
    have ⟨_, _, h⟩ := bind_eq_ok_iff.mp h
    exact pure_eq_ok_iff.mp h ▸ rfl
  case voteRequest =>
    simp only [decodeRpc, bind_eq_ok_iff, pure_eq_ok_iff] at h
    have ⟨_, _, _, _, _, _, h⟩ := h
    exact h ▸ rfl
  case voteReply =>
    have ⟨_, _, h⟩ := bind_eq_ok_iff.mp h
    exact pure_eq_ok_iff.mp h ▸ rfl

theorem kind?_eq_some_iff : kind? name = some kind ↔ name = kind.name := by
  constructor
  case mp  => exact fun h => by simpa [eq_comm] using List.find?_some h
  case mpr => exact fun h => h ▸ kind?_name kind

theorem decodeBody_eq_ok_iff (t : Nat) (rpc : Rpc) :
    (∃ f, Fields.parse (bodyKeys rpc.kind) body = .ok f ∧ f.nat "term" = .ok t ∧ decodeRpc f rpc.kind = .ok rpc) ↔
      (∀ n ∈ t :: rpc.numbers, n < 2 ^ 63) ∧ ReorderedBody body (bodyFields ⟨t, rpc⟩).toResp := by
  have hk : (bodyFields ⟨t, rpc⟩).keys = bodyKeys rpc.kind := by cases rpc <;> rfl
  rw [ReorderedBody, shuffled_iff hk (nodup_bodyKeys rpc.kind)]
  cases rpc
  case appendRequest r =>
    simp only [Rpc.kind, decodeRpc, bind_eq_ok_iff, pure_eq_ok_iff, Fields.nat_eq_ok_iff, Fields.string_eq_ok_iff,
      Fields.array_eq_ok_iff, mapM_decodeEntry_eq_ok_iff, bodyFields, Rpc.numbers, List.forall_mem_cons,
      List.forall_mem_append, exists_eq_right, List.not_mem_nil, false_imp_iff, forall_const, and_true, String.reduceEq,
      if_false, if_true, Resp.array.injEq]
    constructor
    case mp =>
      rintro ⟨f, hf, ⟨ht, hT⟩, _, hl, _, ⟨hi, hI⟩, _, ⟨hp, hP⟩, _, ⟨hc, hC⟩, vs, hv, es, ⟨he, hE⟩, h⟩
      cases h
      exact ⟨⟨ht, ⟨hi, hp, hc⟩, he⟩, f, hf, hT, hl, hI, hP, hC, _, hv, vs, _, rfl, rfl, hE⟩
    case mpr =>
      rintro ⟨⟨ht, ⟨hi, hp, hc⟩, he⟩, f, hf, hT, hl, hI, hP, hC, _, hv, vs, _, rfl, rfl, hE⟩
      exact ⟨f, hf, ⟨ht, hT⟩, _, hl, _, ⟨hi, hI⟩, _, ⟨hp, hP⟩, _, ⟨hc, hC⟩, vs, hv, _, ⟨he, hE⟩, rfl⟩
  case voteRequest r =>
    simp only [Rpc.kind, decodeRpc, bind_eq_ok_iff, pure_eq_ok_iff, Fields.nat_eq_ok_iff, Fields.string_eq_ok_iff,
      bodyFields, Rpc.numbers, List.forall_mem_cons, exists_eq_right, List.not_mem_nil, false_imp_iff, forall_const,
      and_true, String.reduceEq, if_false, Rpc.voteRequest.injEq]
    constructor
    case mp =>
      rintro ⟨f, hf, ⟨ht, hT⟩, _, hc, _, ⟨hi, hI⟩, _, ⟨hl, hL⟩, rfl⟩
      exact ⟨⟨ht, hi, hl⟩, f, hf, hT, hc, hI, hL⟩
    case mpr =>
      rintro ⟨⟨ht, hi, hl⟩, f, hf, hT, hc, hI, hL⟩
      exact ⟨f, hf, ⟨ht, hT⟩, _, hc, _, ⟨hi, hI⟩, _, ⟨hl, hL⟩, rfl⟩
  -- A reply is its answer and nothing else.
  all_goals
    simp only [Rpc.kind, decodeRpc, bind_eq_ok_iff, pure_eq_ok_iff, Fields.nat_eq_ok_iff, Fields.bool_eq_ok_iff,
      bodyFields, Rpc.numbers, List.forall_mem_cons, exists_eq_right, List.not_mem_nil, false_imp_iff, forall_const,
      and_true, String.reduceEq, if_false, Rpc.appendReply.injEq, Rpc.voteReply.injEq]
    constructor
    case mp =>
      rintro ⟨f, hf, ⟨ht, hT⟩, hs⟩
      exact ⟨ht, f, hf, hT, hs⟩
    case mpr =>
      rintro ⟨ht, f, hf, hT, hs⟩
      exact ⟨f, hf, ⟨ht, hT⟩, hs⟩

theorem decodeMessage_eq_ok_iff :
    decodeMessage name body = .ok m ↔
      name = m.rpc.kind.name ∧ (∀ n ∈ m.term :: m.rpc.numbers, n < 2 ^ 63) ∧
        ReorderedBody body (bodyFields m).toResp := by
  rw [← decodeBody_eq_ok_iff m.term m.rpc, ← kind?_eq_some_iff, decodeMessage]
  cases hk : kind? name
  case none => simp
  case some kind =>
    simp only [bind_eq_ok_iff, pure_eq_ok_iff, Option.some.injEq]
    constructor
    case mp =>
      rintro ⟨f, hf, t, ht, rpc, hr, rfl⟩
      obtain rfl := kind_of_decodeRpc hr
      exact ⟨rfl, f, hf, ht, hr⟩
    case mpr =>
      rintro ⟨rfl, f, hf, ht, hr⟩
      exact ⟨f, hf, _, ht, _, hr, rfl⟩

theorem name_ne_identityName (kind : Rpc.Kind) : kind.name ≠ identityName := by
  cases kind <;> decide

theorem nodup_envelopeKeys : envelopeKeys.Nodup := by decide

theorem nodup_identityKeys : identityKeys.Nodup := by decide

theorem reordered_envelope_iff {body : Fields} :
    Reordered r (envelope name body) ↔ ∃ f, Fields.parse envelopeKeys r = .ok f ∧ f.string "type" = .ok name ∧
      ∃ v, f.get "msg" = .ok v ∧ ReorderedBody v body.toResp := by
  have hk : Fields.keys ⟨[("type", .ofString name), ("msg", body.toResp)]⟩ = envelopeKeys := rfl
  rw [Reordered, envelope, shuffled_iff hk nodup_envelopeKeys]
  simp only [List.forall_mem_cons, String.reduceEq, if_false, if_true, exists_eq_right, List.not_mem_nil, false_imp_iff,
    forall_const, and_true, Fields.string_eq_ok_iff]

theorem decodeIdentity_eq_ok_iff {name : String} :
    (∃ f, Fields.parse identityKeys body = .ok f ∧ f.string "id" = .ok name) ↔
      ReorderedBody body (Fields.toResp ⟨[("id", .ofString name)]⟩) := by
  have hk : Fields.keys ⟨[("id", .ofString name)]⟩ = identityKeys := rfl
  rw [ReorderedBody, shuffled_iff hk nodup_identityKeys]
  simp only [List.forall_mem_cons, String.reduceEq, if_false, exists_eq_right, List.not_mem_nil, false_imp_iff,
    forall_const, and_true, Fields.string_eq_ok_iff]

theorem decode_eq_ok_iff_reordered : decode r = .ok f ↔ (∀ n ∈ f.numbers, n < 2 ^ 63) ∧ Reordered r f.encode := by
  simp only [decode, bind_eq_ok_iff]
  cases f
  case identity id =>
    rw [encode, reordered_envelope_iff]
    simp only [← decodeIdentity_eq_ok_iff]
    constructor
    case mp =>
      rintro ⟨f, hf, name, hn, body, hb, h⟩
      split at h
      case isTrue hi =>
        simp only [bind_eq_ok_iff, pure_eq_ok_iff, identity.injEq, exists_eq_right] at h
        exact ⟨by simp [numbers], f, hf, hi ▸ hn, body, hb, h⟩
      case isFalse =>
        obtain ⟨_, _, h⟩ := bind_eq_ok_iff.mp h
        cases h
    case mpr =>
      rintro ⟨_, f, hf, hn, body, hb, h⟩
      refine ⟨f, hf, _, hn, body, hb, ?_⟩
      simpa only [if_true, bind_eq_ok_iff, pure_eq_ok_iff, identity.injEq, exists_eq_right] using h
  case message m =>
    rw [encode, reordered_envelope_iff]
    constructor
    case mp =>
      rintro ⟨f, hf, name, hn, body, hb, h⟩
      split at h
      case isTrue =>
        obtain ⟨_, _, h⟩ := bind_eq_ok_iff.mp h
        obtain ⟨_, _, h⟩ := map_eq_ok_iff.mp h
        cases h
      case isFalse =>
        simp only [bind_eq_ok_iff, pure_eq_ok_iff, message.injEq, exists_eq_right] at h
        obtain ⟨hk, hm, h⟩ := decodeMessage_eq_ok_iff.mp h
        exact ⟨hm, f, hf, hk ▸ hn, body, hb, h⟩
    case mpr =>
      rintro ⟨hm, f, hf, hn, body, hb, h⟩
      refine ⟨f, hf, _, hn, body, hb, ?_⟩
      rw [if_neg (name_ne_identityName _), decodeMessage_eq_ok_iff.mpr ⟨rfl, hm, h⟩]
      rfl

theorem Fields.Matches.refl {R : String → Resp → Resp → Prop} {f : Fields} (h : ∀ p ∈ f.values, R p.1 p.2 p.2) :
    f.Matches R f :=
  ⟨f.values, .refl _, List.forall₂_same.mpr fun p hp => ⟨rfl, h p hp⟩⟩

theorem reorderedEntry_refl (e : Entry) : ReorderedEntry (entryFields e).toResp (entryFields e).toResp :=
  ⟨_, _, rfl, rfl, .refl fun _ _ => rfl⟩

theorem reorderedBody_refl (m : Message) : ReorderedBody (bodyFields m).toResp (bodyFields m).toResp := by
  refine ⟨_, _, rfl, rfl, .refl ?_⟩
  have ⟨t, rpc⟩ := m
  cases rpc
  case appendRequest r =>
    simp [bodyFields, List.forall₂_same, reorderedEntry_refl]
  all_goals simp [bodyFields]

theorem reordered_envelope_refl (h : ReorderedBody body.toResp body.toResp) :
    Reordered (envelope name body) (envelope name body) :=
  ⟨_, _, rfl, rfl, .refl (by simpa using h)⟩

theorem reordered_refl (f : Frame) : Reordered f.encode f.encode := by
  cases f
  case identity id => exact reordered_envelope_refl ⟨_, _, rfl, rfl, .refl (by simp)⟩
  case message m   => exact reordered_envelope_refl (reorderedBody_refl m)

theorem decode_encode (h : ∀ n ∈ f.numbers, n < 2 ^ 63) : decode f.encode = .ok f :=
  decode_eq_ok_iff_reordered.mpr ⟨h, reordered_refl f⟩

theorem ofNat_injective (hn : n < wordSize) (hm : m < wordSize) (h : Resp.ofNat n = .ofNat m) : n = m :=
  eq_of_ofNat_eq hn hm (Resp.integer.inj h)

theorem ofBool_injective (h : Resp.ofBool a = .ofBool b) : a = b := by
  revert a b
  decide

theorem encodePayload_injective (hb : p.isBinary = q.isBinary) (h : encodePayload p = encodePayload q) : p = q := by
  have ⟨data, hd⟩ := exists_encodePayload_eq p
  have hp : decodePayload p.isBinary data = .ok p := decodePayload_eq_ok_iff.mpr ⟨rfl, hd.symm⟩
  have hq : decodePayload p.isBinary data = .ok q := decodePayload_eq_ok_iff.mpr ⟨hb, by rw [← hd, h]⟩
  exact Except.ok.inj (hp.symm.trans hq)

theorem entryFields_injective {e e' : Entry} (he : ∀ n ∈ e.numbers, n < wordSize) (he' : ∀ n ∈ e'.numbers, n < wordSize)
    (h : entryFields e = entryFields e') : e = e' := by
  cases e
  cases e'
  simp only [Entry.numbers, List.forall_mem_cons] at he he'
  simp only [entryFields, Fields.mk.injEq, List.cons.injEq, Prod.mk.injEq, true_and, and_true] at h
  have ⟨ht, hi, hb, hd⟩ := h
  rw [Entry.mk.injEq]
  exact ⟨ofNat_injective he.left he'.left ht, ofNat_injective he.right.left he'.right.left hi,
    encodePayload_injective (ofBool_injective hb) hd⟩

theorem entries_injective {es es' : List Entry} (he : ∀ n ∈ es.flatMap Entry.numbers, n < wordSize)
    (he' : ∀ n ∈ es'.flatMap Entry.numbers, n < wordSize)
    (h : es.map (fun e => (entryFields e).toResp) = es'.map fun e => (entryFields e).toResp) : es = es' := by
  induction es generalizing es'
  case nil =>
    cases es'
    case nil  => rfl
    case cons => cases h
  case cons e es ih =>
    cases es'
    case nil => cases h
    case cons e' es' =>
      have ⟨hh, ht⟩ := List.cons.inj h
      simp only [List.flatMap_cons, List.forall_mem_append] at he he'
      rw [entryFields_injective he.left he'.left (Fields.toResp_injective hh), ih he.right he'.right ht]

theorem bodyFields_injective {rpc rpc' : Rpc} (hm : ∀ n ∈ t :: rpc.numbers, n < wordSize)
    (hm' : ∀ n ∈ t' :: rpc'.numbers, n < wordSize) (hk : rpc.kind = rpc'.kind)
    (h : bodyFields ⟨t, rpc⟩ = bodyFields ⟨t', rpc'⟩) : t = t' ∧ rpc = rpc' := by
  have ⟨ht, hn⟩ := List.forall_mem_cons.mp hm
  have ⟨ht', hn'⟩ := List.forall_mem_cons.mp hm'
  cases rpc <;> cases rpc' <;> cases hk
  all_goals
    simp only [bodyFields, Fields.mk.injEq, List.cons.injEq, Prod.mk.injEq, true_and, and_true, Resp.array.injEq] at h
    simp only [Rpc.numbers, List.forall_mem_cons, List.forall_mem_append] at hn hn'
  case appendRequest r r' =>
    have ⟨⟨hi, hp, hc, _⟩, he⟩ := hn
    have ⟨⟨hi', hp', hc', _⟩, he'⟩ := hn'
    have ⟨hT, hL, hI, hP, hC, hE⟩ := h
    cases r
    cases r'
    simp only [Rpc.appendRequest.injEq, AppendRequest.mk.injEq]
    exact ⟨ofNat_injective ht ht' hT, Fields.ofString_injective hL, ofNat_injective hi hi' hI,
      ofNat_injective hp hp' hP, ofNat_injective hc hc' hC, entries_injective he he' hE⟩
  case voteRequest r r' =>
    have ⟨hi, hl, _⟩ := hn
    have ⟨hi', hl', _⟩ := hn'
    have ⟨hT, hC, hI, hL⟩ := h
    cases r
    cases r'
    simp only [Rpc.voteRequest.injEq, VoteRequest.mk.injEq]
    exact ⟨ofNat_injective ht ht' hT, Fields.ofString_injective hC, ofNat_injective hi hi' hI,
      ofNat_injective hl hl' hL⟩
  all_goals exact ⟨ofNat_injective ht ht' h.left, congrArg _ (ofBool_injective h.right)⟩

theorem envelope_injective (h : envelope name body = envelope name' body') : name = name' ∧ body = body' := by
  have h := Fields.toResp_injective h
  simp only [Fields.mk.injEq, List.cons.injEq, Prod.mk.injEq, true_and, and_true] at h
  exact ⟨Fields.ofString_injective h.left, Fields.toResp_injective h.right⟩

theorem encode_injective {f g : Frame} (hf : ∀ n ∈ f.numbers, n < wordSize) (hg : ∀ n ∈ g.numbers, n < wordSize)
    (h : f.encode = g.encode) : f = g := by
  cases f <;> cases g <;> have ⟨hn, hb⟩ := envelope_injective h
  case identity.identity =>
    simp only [Fields.mk.injEq, List.cons.injEq, Prod.mk.injEq, true_and, and_true] at hb
    rw [Fields.ofString_injective hb]
  case identity.message => exact absurd hn.symm (name_ne_identityName _)
  case message.identity => exact absurd hn (name_ne_identityName _)
  case message.message m m' =>
    have hk : m.rpc.kind = m'.rpc.kind := Option.some.inj (by rw [← kind?_name, hn, kind?_name])
    have ⟨ht, hr⟩ := bodyFields_injective hf hg hk hb
    cases m
    cases m'
    simp only at ht hr
    rw [ht, hr]

-- A value is read as a frame exactly if it is what is written for the frame, up to the order of keys, and the numbers
-- of the frame fit a signed word. So reading undoes writing, and what is written for a frame is written for no other.
theorem decode_exact :
    (∀ r f, decode r = .ok f ↔ (∀ n ∈ f.numbers, n < 2 ^ 63) ∧ Reordered r f.encode) ∧
    (∀ f, (∀ n ∈ f.numbers, n < 2 ^ 63) → decode f.encode = .ok f) ∧
    (∀ f g : Frame, (∀ n ∈ f.numbers, n < wordSize) → (∀ n ∈ g.numbers, n < wordSize) →
      f.encode = g.encode → f = g) := by
  refine ⟨fun r f => ?_, fun f hn => ?_, fun f g hf hg h => ?_⟩
  case refine_1 => exact decode_eq_ok_iff_reordered
  case refine_2 => exact decode_encode hn
  case refine_3 => exact encode_injective hf hg h

def request : Message :=
  ⟨7, .appendRequest ⟨"a", 3, 6, 2, [⟨6, 4, .text [104, 105]⟩, ⟨7, 5, .binary [0, 255]⟩]⟩⟩

def bodyFirst : Fields :=
  ⟨[("msg", (bodyFields request).toResp), ("type", .ofString request.rpc.kind.name)]⟩

theorem bodyFirst_reordered : Reordered bodyFirst.toResp (message request).encode := by
  refine ⟨bodyFirst, _, rfl, rfl, _, List.Perm.swap .., ?_⟩
  exact .cons ⟨rfl, rfl⟩ (.cons ⟨rfl, reorderedBody_refl request⟩ .nil)

theorem decode_exact_of_request :
    (∀ n ∈ (message request).numbers, n < 2 ^ 63) ∧ bodyFirst.toResp ≠ (message request).encode ∧
    decode bodyFirst.toResp = .ok (message request) ∧ decode (message request).encode = .ok (message request) ∧
    ∀ g : Frame, (∀ n ∈ g.numbers, n < wordSize) → (message request).encode = g.encode → message request = g := by
  have hn : ∀ n ∈ (message request).numbers, n < 2 ^ 63 := by decide
  have ⟨hd, he, hi⟩ := decode_exact
  exact ⟨hn, by decide +kernel, (hd _ _).mpr ⟨hn, bodyFirst_reordered⟩, he _ hn, fun g => hi _ g (by decide)⟩

end Frame
end RaftGroup
