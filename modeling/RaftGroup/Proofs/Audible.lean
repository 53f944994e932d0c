import RaftGroup.Proofs.Finality
import RaftGroup.Proofs.Frames
import RaftGroup.Proofs.Pending

namespace RaftGroup

open Entries

def Message.Legible (m : Message) : Prop :=
  ∃ r, Frame.decode r = .ok (.message m)

def Call.Legible : Call → Prop
  | .command _   => True
  | .message m _ => m.Legible

theorem Message.Legible.numbers {m : Message} : m.Legible → ∀ n ∈ m.term :: m.rpc.numbers, n < 2 ^ 63
  | ⟨_, h⟩ => (Frame.decode_eq_ok_iff_reordered.mp h).left

theorem Rpc.numbers_of_isReply {rpc : Rpc} (h : rpc.isReply = true) : rpc.numbers = [] := by
  cases rpc
  case appendReply   => rfl
  case voteReply     => rfl
  case appendRequest => cases h
  case voteRequest   => cases h

theorem Frame.decode_encode_message_iff (m : Message) :
    Frame.decode (Frame.message m).encode = .ok (.message m) ↔ m.term < 2 ^ 63 ∧ ∀ n ∈ m.rpc.numbers, n < 2 ^ 63 := by
  rw [← List.forall_mem_cons (p := (· < 2 ^ 63))]
  exact ⟨fun h => (decode_eq_ok_iff_reordered.mp h).left, fun h => decode_encode h⟩

def Modest (post : List Posted) : Prop :=
  ∀ p ∈ post, ∀ r, p.letter.message.rpc = .appendRequest r → ∀ x ∈ r.entries, x.term < 2 ^ 63

namespace Gist

variable {g g' : Gist} {post : List Posted} {p : Posted} {sound : Prop}

-- The entries of the log are numbered from 1 on, and their terms have been read or have been the own one.
structure Sober (g : Gist) : Prop where
  index : Consecutive 0 g.log
  terms : ∀ x ∈ g.log, x.term < 2 ^ 63 ∨ x.term ≤ g.term

theorem Sober.of_log_eq (h : g.Sober) (hl : g'.log = g.log) (ht : g.term ≤ g'.term) : g'.Sober where
  index := hl ▸ h.index
  terms := hl ▸ fun x hx => (h.terms x hx).imp_right fun hx => Nat.le_trans hx ht

theorem Move.sober (h : Move sound post g g') (hp : Modest post) (hs : g.Sober) : g'.Sober := by
  have hi := h.consecutive hs.index
  cases h
  case campaign => exact hs.of_log_eq rfl (Nat.le_succ _)
  case adopt lt => exact hs.of_log_eq rfl (Nat.le_of_lt lt)
  case append   =>
    refine ⟨hi, fun x hx => ?_⟩
    obtain hx | hx := List.mem_append.mp hx
    · exact hs.terms x hx
    · cases List.mem_singleton.mp hx
      exact .inr (Nat.le_refl _)
  case absorb ht _ _ hm =>
    obtain ⟨p, hm', hl⟩ := ht
    refine ⟨hi, fun x hx => ?_⟩
    obtain hx | hx := hm.mem hx
    · exact hs.terms x hx
    · exact .inl (hp p hm' _ (by rw [hl]) x hx)
  all_goals exact hs.of_log_eq rfl (Nat.le_refl _)

theorem Moves.sober (h : Moves sound post g g') (hp : Modest post) (hs : g.Sober) : g'.Sober := by
  induction h
  case refl         => exact hs
  case tail _ hm ih => exact hm.sober hp ih

theorem Moves.log_isPrefix (h : Moves sound [] g g') : g.log <+: g'.log := by
  induction h
  case refl         => exact List.prefix_refl _
  case tail _ hm ih =>
    refine ih.trans ?_
    cases hm
    case append    => exact List.prefix_append _ _
    case absorb ht _ _ _ =>
      obtain ⟨_, hp, _⟩ := ht
      cases hp
    all_goals exact List.prefix_refl _

theorem Sober.term_lt (h : g.Sober) (ht : g.term < 2 ^ 63) (hx : x ∈ g.log) : x.term < 2 ^ 63 := by
  have := h.terms x hx
  omega

theorem Sober.ends_lt (h : g.Sober) (ht : g.term < 2 ^ 63) (he : Ends g.log n t) : t < 2 ^ 63 := by
  cases n
  case zero   => cases he; decide
  case succ n =>
    obtain ⟨x, hx, rfl⟩ := Option.map_eq_some_iff.mp he
    exact h.term_lt ht (List.mem_of_getElem? hx)

theorem Sober.index_le (h : g.Sober) (hx : x ∈ g.log) : x.index ≤ g.log.length := by
  obtain ⟨n, hn, hx⟩ := List.getElem_of_mem hx
  have := h.index n x (List.getElem?_eq_some_iff.mpr ⟨hn, hx⟩)
  omega

theorem Says.numbers_lt (h : g.Says post p) (hs : g.Sober) (hc : g.commit ≤ g.log.length) (hl : g.log.length < 2 ^ 63)
    (ht : g.term < 2 ^ 63) : ∀ n ∈ p.letter.message.rpc.numbers, n < 2 ^ 63 := by
  cases hr : p.letter.message.rpc
  case appendReply => exact fun _ hn => by cases hn
  case voteReply   => exact fun _ hn => by cases hn
  case voteRequest r =>
    obtain ⟨_, hi, he⟩ := h.stands r hr
    have := hs.ends_lt ht (he ▸ ends_lastTerm g.log)
    simp only [Rpc.numbers, List.forall_mem_cons]
    exact ⟨by omega, this, fun _ hn => by cases hn⟩
  case appendRequest r =>
    obtain ⟨_, he, hp, hc'⟩ := h.leads r hr
    have := he.le_length
    have := hs.ends_lt ht he
    simp only [Rpc.numbers, List.forall_mem_cons, List.forall_mem_append]
    refine ⟨⟨by omega, this, by omega, fun _ hn => by cases hn⟩, fun n hn => ?_⟩
    obtain ⟨x, hx, hn⟩ := List.mem_flatMap.mp hn
    have hx := List.mem_of_mem_drop (hp.subset hx)
    have := hs.term_lt ht hx
    have := hs.index_le hx
    simp only [Entry.numbers, List.mem_cons, List.not_mem_nil, or_false] at hn
    omega

end Gist

def Call.post (id : String) : Call → List Posted
  | .command _   => []
  | .message m s => [⟨⟨s.id, id, m⟩, none⟩]

def Call.raise (term : Nat) : Call → Nat
  | .command .tick    => term + 1
  | .command .timeout => term + 1
  | .command _        => term
  | .message m _      => max term m.term

theorem Call.le_raise (t : Nat) (c : Call) : t ≤ c.raise t := by
  cases c
  case message m s => exact Nat.le_max_left ..
  case command c   => cases c <;> simp only [raise] <;> omega

theorem Call.raise_mono (c : Call) (h : t ≤ t') : c.raise t ≤ c.raise t' := by
  cases c
  case message m s => exact Nat.max_le.mpr ⟨Nat.le_trans h (Nat.le_max_left ..), Nat.le_max_right ..⟩
  case command c   => cases c <;> simp only [raise] <;> omega

theorem Call.Legible.modest {c : Call} (h : c.Legible) (id : String) : Modest (c.post id) := by
  cases c
  case command => nofun
  case message m s =>
    intro p hp r hr x hx
    cases List.mem_singleton.mp hp
    refine Message.Legible.numbers h _ (List.mem_cons_of_mem _ ?_)
    rw [show m.rpc = .appendRequest r from hr]
    exact List.mem_append_right _ (List.mem_flatMap.mpr ⟨x, hx, List.mem_cons_self⟩)

namespace Engine

open Gist

variable {e e' : Engine} {os : List Outgoing} {o : Outgoing} {c : Call}

def act (e : Engine) : Call → Except Overflow (Engine × List Outgoing)
  | .command c   => e.obey c
  | .message m s => Turn.outcome <$> e.receive m s

theorem answer_eq_act (e : Engine) (c : Call) : e.answer c = Prod.fst <$> e.act c := by
  cases c
  case command     => rfl
  case message m s => rw [answer, act]; cases e.receive m s <;> rfl

theorem act_acts (h : e.act c = .ok out) (hc : ∀ n, c ≠ .command (.take n)) :
    ∃ cause, e.Acts False (c.post e.id) cause out := by
  cases c
  case command c   => exact ⟨none, obey_acts h fun n hn => hc n (congrArg _ hn)⟩
  case message m s =>
    obtain ⟨turn, hr, rfl⟩ := map_eq_ok_iff.mp h
    exact ⟨_, receive_acts hr⟩

theorem act_sober (h : e.act c = .ok (e', os)) (hc : c.Legible) (hs : e.gist.Sober) : e'.gist.Sober := by
  by_cases ht : ∃ n, c = .command (.take n)
  case pos =>
    obtain ⟨n, rfl⟩ := ht
    cases h
    rw [(takeCommitted_spec n e).left]
    exact hs.of_log_eq rfl (Nat.le_refl _)
  case neg =>
    obtain ⟨_, ha⟩ := act_acts h fun n hn => ht ⟨n, hn⟩
    obtain ⟨_, hb, hm, _⟩ := ha.turn
    exact Moves.sober (hb.trans hm) (hc.modest e.id) hs

theorem becomeLeader_spec (h : e.becomeLeader = .ok (e', ns)) :
    e'.term = e.term ∧ ∀ c, e'.standing = .candidate c → e' = e ∧ c.votes.length < e.quorum := by
  obtain ⟨rfl, hq⟩ | ⟨_, _, _, rfl⟩ := becomeLeader_eq_ok h
  case inl => exact ⟨rfl, fun c hc => ⟨rfl, hq c hc⟩⟩
  case inr =>
    have ha := advanceCommit_standing e.asLeader
    exact ⟨ha.right, fun c hc => by cases ha.left.symm.trans hc⟩

theorem peers_ne_nil_of_lt_quorum (h : 1 < e.quorum) : e.peers ≠ [] := by
  intro hp
  rw [quorum, hp] at h
  exact absurd h (by decide)

structure Times (e : Engine) (turn : Turn (Option Outgoing)) : Prop where
  term  : turn.engine.term ≤ e.term + 1
  asks  : ∀ o ∈ turn.result, o.dest = .broadcast ∧ turn.engine.peers ≠ []

theorem timeout_times (h : e.timeout = .ok turn) : e.Times turn := by
  obtain ⟨_, rfl⟩ | ⟨_, e₁, e₂, ns, h₁, h₂, rfl⟩ := timeout_eq_ok h
  case inl => exact ⟨Nat.le_succ _, fun _ ho => by cases ho⟩
  case inr =>
    obtain ⟨hn, hc⟩ := becomeLeader_spec h₂
    obtain ⟨_, rfl⟩ := campaign_eq_ok h₁
    refine ⟨Nat.le_of_eq hn, fun o ho => ?_⟩
    rw [voteRequest?] at ho
    dsimp only at ho
    split at ho
    case h_2 => cases ho
    case h_1 c hs =>
      obtain ⟨rfl, hq⟩ := hc c hs
      cases hs
      cases ho
      exact ⟨rfl, peers_ne_nil_of_lt_quorum hq⟩

theorem electionTick_times (h : e.electionTick ticks wait = .ok turn) : e.Times turn := by
  obtain ⟨_, rfl⟩ | ⟨_, out, ho, rfl⟩ := electionTick_eq_ok h
  case inl => exact ⟨Nat.le_succ _, fun _ ho => by cases ho⟩
  case inr => exact ⟨(timeout_times ho).term, (timeout_times ho).asks⟩

theorem tick_times (h : e.tick = .ok turn) : e.Times turn := by
  rw [tick] at h
  split at h
  case h_1   => exact electionTick_times h
  case h_2   => exact electionTick_times h
  case h_3 l =>
    obtain ⟨⟨_, ns⟩, hl, h⟩ := bind_eq_ok_iff.mp h
    obtain ⟨_, rfl, _⟩ := leaderTick_eq_ok hl
    cases h
    exact ⟨Nat.le_succ _, fun _ ho => by cases ho⟩

theorem Times.letters (h : e.Times turn) (ho : o ∈ turn.result) (i : String) :
    ∃ l, l ∈ Group.letters turn.engine i o := by
  obtain ⟨hd, hp⟩ := h.asks o ho
  obtain ⟨s, hs⟩ := List.exists_mem_of_ne_nil _ hp
  rw [Group.letters, hd]
  exact ⟨_, List.mem_map.mpr ⟨s, hs, rfl⟩⟩

theorem replicateTo_spec (h : e.replicateTo s = .ok turn) :
    turn.engine.term = e.term ∧ ∀ o ∈ turn.result, o.dest = .to s := by
  obtain ⟨⟨_, rfl⟩, _⟩ | ⟨_, _, _, _, _, _, _, _, rfl⟩ := replicateTo_eq_ok h
  case inl => exact ⟨rfl, fun _ ho => by cases ho⟩
  case inr => exact ⟨rfl, fun o ho => by cases ho; rfl⟩

theorem readAppendReply_term (h : e.readAppendReply success s = .ok (e', ns)) : e'.term = e.term :=
  (readAppendReply_unanswered? h s).right.left

theorem takeRequest_term (h : e.takeRequest n r s = .ok turn) : turn.engine.term = e.term := by
  rw [takeRequest] at h
  split at h
  case isTrue  => cases h; rfl
  case isFalse =>
    split at h
    case h_1 hf =>
      cases h
      rw [((follow_gist hf).resolve_right fun h => absurd h.left (by decide)).right]
    case h_2 e₁ ns hf =>
      obtain ⟨merged, hm, h⟩ := bind_eq_ok_iff.mp h
      cases h
      obtain ⟨_, _, hg⟩ := (follow_gist hf).resolve_left fun h => absurd h.left (by decide)
      have hr : e₁.role = .follower := by rw [← gist_role, hg]; rfl
      have told : e₁.gist.Told [⟨⟨s.id, e₁.id, ⟨e₁.term, .appendRequest r⟩⟩, none⟩] s.id (.appendRequest r) :=
        ⟨_, List.mem_singleton_self _, rfl⟩
      exact (mergeRequest_moves False hr told hm).right.right.left.trans (congrArg Gist.term hg)

theorem handle_term (h : e.handle s m = .ok turn) : turn.engine.term = e.term := by
  rw [handle] at h
  split at h
  case isTrue => cases h; rfl
  case isFalse =>
    split at h
    case h_1 =>
      cases h
      rw [answerVote]
      dsimp only
      split <;> rfl
    case h_2 granted _ =>
      have hc := countVote_standing e granted s s
      cases h
      exact hc.right.left
    case h_3 =>
      obtain ⟨taken, ht, h⟩ := bind_eq_ok_iff.mp h
      cases h
      exact takeRequest_term ht
    case h_4 =>
      obtain ⟨⟨e', ns⟩, hr, h⟩ := bind_eq_ok_iff.mp h
      cases h
      exact readAppendReply_term hr

theorem adoptTerm_term (e : Engine) (s : Server) (m : Message) : (e.adoptTerm s m).1.term = max e.term m.term := by
  rw [adoptTerm]
  split
  case isTrue h  => exact (Nat.max_eq_right (Nat.le_of_lt h)).symm
  case isFalse h => exact (Nat.max_eq_left (Nat.le_of_not_lt h)).symm

theorem receive_term (hs : s.asPeer ∈ e.peers) (h : e.receive m s = .ok turn) :
    turn.engine.term = max e.term m.term := by
  obtain ⟨hn, _⟩ | ⟨_, replied, e₂, ns, _, hh, hb, rfl⟩ := receive_eq_ok h
  case inl => exact absurd hs hn
  case inr =>
    calc e₂.advanceCommit.1.term
      _ = e₂.term                            := (advanceCommit_standing e₂).right
      _ = replied.engine.term                := (becomeLeader_spec hb).left
      _ = (e.adoptTerm s.asPeer m).1.term    := handle_term hh
      _ = max e.term m.term                  := adoptTerm_term e s.asPeer m

theorem receive_of_not_peer (hs : s.asPeer ∉ e.peers) : e.receive m s = .ok ⟨e, none, [.wrongGroup s.asPeer]⟩ := by
  rw [receive]
  dsimp only
  rw [if_neg hs]
  rfl

theorem receive_term_le (h : e.receive m s = .ok turn) : turn.engine.term ≤ max e.term m.term := by
  by_cases hs : s.asPeer ∈ e.peers
  case pos => exact Nat.le_of_eq (receive_term hs h)
  case neg =>
    cases (receive_of_not_peer hs).symm.trans h
    exact Nat.le_max_left ..

theorem act_replies (h : e.act (.message m s) = .ok (e', os)) (ho : o ∈ os) :
    o.dest = .to (.peer s.id) ∧ o.message.rpc.isReply = true := by
  obtain hn | ⟨reply, hr, hi⟩ := hear_replies (l := ⟨s.id, e.id, m⟩) h
  case inl => cases (show os = [] from hn); cases ho
  case inr =>
    cases (show os = [⟨.to (.peer s.id), reply⟩] from hr)
    cases List.mem_singleton.mp ho
    exact ⟨rfl, hi⟩

theorem act_letters (h : e.act c = .ok (e', os)) (ho : o ∈ os) : ∃ l, l ∈ Group.letters e' e.id o := by
  cases c
  case message m s =>
    rw [Group.letters, (act_replies h ho).left]
    exact ⟨_, List.mem_singleton_self _⟩
  case command c =>
    cases c
    case take   => cases h; cases ho
    case submit => obtain ⟨_, _, h⟩ := map_eq_ok_iff.mp h; cases h; cases ho
    case tick   =>
      obtain ⟨turn, ht, h⟩ := map_eq_ok_iff.mp h
      cases h
      exact (tick_times ht).letters (Option.mem_toList.mp ho) e.id
    case timeout =>
      obtain ⟨turn, ht, h⟩ := map_eq_ok_iff.mp h
      cases h
      exact (timeout_times ht).letters (Option.mem_toList.mp ho) e.id
    case replicate =>
      obtain ⟨turn, ht, h⟩ := map_eq_ok_iff.mp h
      cases h
      rw [Group.letters, (replicateTo_spec ht).right o (Option.mem_toList.mp ho)]
      exact ⟨_, List.mem_singleton_self _⟩

theorem act_term_le (h : e.act c = .ok (e', os)) : e'.term ≤ c.raise e.term := by
  cases c
  case message =>
    obtain ⟨turn, ht, h⟩ := map_eq_ok_iff.mp h
    cases h
    exact receive_term_le ht
  case command c =>
    cases c
    case take limit => cases h; exact Nat.le_of_eq (takeCommitted_standing limit e).right
    case submit     =>
      obtain ⟨turn, ht, h⟩ := map_eq_ok_iff.mp h
      cases h
      exact Nat.le_of_eq (submit_standing ht).right
    case replicate  =>
      obtain ⟨turn, ht, h⟩ := map_eq_ok_iff.mp h
      cases h
      exact Nat.le_of_eq (replicateTo_spec ht).left
    case tick       =>
      obtain ⟨turn, ht, h⟩ := map_eq_ok_iff.mp h
      cases h
      exact (tick_times ht).term
    case timeout    =>
      obtain ⟨turn, ht, h⟩ := map_eq_ok_iff.mp h
      cases h
      exact (timeout_times ht).term

theorem act_says (h : e.act c = .ok (e', os)) (ho : o ∈ os) :
    ∃ g l cause, l.message = o.message ∧ Moves False (c.post e.id) e.gist g ∧
      Moves False (c.post e.id) g e'.gist ∧ g.Says (c.post e.id) ⟨l, cause⟩ := by
  have hc : ∀ n, c ≠ .command (.take n) := by
    rintro n rfl
    cases h
    cases ho
  obtain ⟨cause, ha⟩ := act_acts h hc
  obtain ⟨g, hb, hm, hs⟩ := ha.turn
  obtain ⟨l, hl⟩ := act_letters h ho
  exact ⟨g, l, cause, (Group.sender_of_mem_letters hl).right, hb, hm, hs o ho l hl⟩

theorem term_le_of_act (h : e.act c = .ok (e', os)) (ho : o ∈ os) : o.message.term ≤ e'.term := by
  obtain ⟨g, l, _, hl, _, hm, hs⟩ := act_says h ho
  rw [← hl, hs.term]
  exact hm.evolves.term

theorem act_numbers_lt (h : e.act c = .ok (e', os)) (hs : e.gist.Sober) (hc : e.commit ≤ e.storage.log.entries.length)
    (hl : e'.storage.lastIndex < 2 ^ 63) (ho : o ∈ os) (ht : o.message.term < 2 ^ 63) :
    ∀ n ∈ o.message.rpc.numbers, n < 2 ^ 63 := by
  cases c
  case message m s =>
    rw [Rpc.numbers_of_isReply (act_replies h ho).right]
    nofun
  case command c =>
    obtain ⟨g, l, _, hm, hb, ha, hg⟩ := act_says h ho
    have hl : g.log.length < 2 ^ 63 := Nat.lt_of_le_of_lt ha.log_isPrefix.length_le hl
    rw [← hm] at ht ⊢
    exact hg.numbers_lt (hb.sober nofun hs) (hb.evolves.keeps hc).left hl (hg.term ▸ ht)

end Engine

namespace Career

variable {c : Career} {incidents : List Incident}

theorem step_sober (hi : i.call.Legible) (hs : c.engine.gist.Sober) : (c.step i).engine.gist.Sober := by
  rw [step]
  split
  case h_2      => exact hs
  case h_1 e' h =>
    rw [Engine.answer_eq_act] at h
    obtain ⟨_, ha, rfl⟩ := map_eq_ok_iff.mp h
    exact Engine.act_sober ha hi hs

theorem step_term_le (c : Career) (i : Incident) : (c.step i).engine.term ≤ i.call.raise c.engine.term := by
  rw [step]
  split
  case h_2      => exact i.call.le_raise c.engine.term
  case h_1 e' h =>
    rw [Engine.answer_eq_act] at h
    obtain ⟨_, ha, rfl⟩ := map_eq_ok_iff.mp h
    have ht : _ ≤ i.call.raise (c.engine.withFaults i.faults).term := Engine.act_term_le ha
    exact ht

theorem after_sober (hi : ∀ i ∈ incidents, i.call.Legible) (hs : c.engine.gist.Sober) :
    (c.after incidents).engine.gist.Sober := by
  induction incidents generalizing c
  case nil               => exact hs
  case cons i incidents ih =>
    exact ih (fun j hj => hi j (List.mem_cons_of_mem _ hj)) (step_sober (hi i List.mem_cons_self) hs)

-- The term that calls can raise a member to that has been in none.
def peak (calls : List Call) : Nat :=
  calls.foldl Call.raise 0

theorem after_term_le (c : Career) (incidents : List Incident) (h : c.engine.term ≤ t) :
    (c.after incidents).engine.term ≤ (incidents.map Incident.call).foldl Call.raise t := by
  induction incidents generalizing c t
  case nil                 => exact h
  case cons i incidents ih => exact ih (c.step i) (Nat.le_trans (c.step_term_le i) (i.call.raise_mono h))

-- What a member says is read by others as it was meant exactly as long as its term fits a signed word, whatever the
-- member has been told by messages that were read, and asked to do, before. No log that fits an address space has 2^63
-- entries. The term is none that nobody has heard of: there has to be a message that comes as close to it as there are
-- ticks and timeouts.
theorem legible_iff (id : String) (peers : List Server) (random : RandomSource) (config : Config)
    (hi : ∀ i ∈ incidents, i.call.Legible)
    (h : (((start id peers {} random config).after incidents).engine.withFaults faults).act call = .ok (e', os))
    (hl : e'.storage.lastIndex < 2 ^ 63) :
    ∀ o ∈ os,
      (Frame.decode (Frame.message o.message).encode = .ok (.message o.message) ↔ o.message.term < 2 ^ 63) ∧
      o.message.term ≤ peak (incidents.map Incident.call ++ [call]) := by
  intro o ho
  have hn : Log.ofEntries [] = .ok {} := rfl
  have hs := ((settled_start hn id peers {} random config).after incidents).left
  have hg := after_sober (c := start id peers {} random config) hi ⟨nofun, nofun⟩
  refine ⟨?_, ?_⟩
  case refine_1 =>
    rw [Frame.decode_encode_message_iff]
    exact ⟨And.left, fun ht => ⟨ht, Engine.act_numbers_lt h hg hs.le hl ho ht⟩⟩
  case refine_2 =>
    rw [peak, List.foldl_append]
    exact Nat.le_trans (Engine.term_le_of_act h ho) <| Nat.le_trans (Engine.act_term_le h) <|
      call.raise_mono ((start id peers {} random config).after_term_le incidents (Nat.zero_le _))

-- Somebody rejects a request that nobody has made, and states a term.
def rejected (term : Nat) : Message := ⟨term, .appendReply false⟩

theorem rejected_legible (h : term < 2 ^ 63) : (rejected term).Legible :=
  ⟨_, (Frame.decode_encode_message_iff _).mpr ⟨h, nofun⟩⟩

def rejection (term : Nat) : Incident := ⟨.message (rejected term) (.peer "b"), {}⟩

def rebuffed (term : Nat) : Career :=
  (start "a" [.peer "b"] {} ⟨fun _ => 0, 0⟩ {}).after [rejection term]

theorem legible_iff_of_rejected :
    let request : Message := ⟨7, .voteRequest ⟨"a", 0, 0⟩⟩
    (∀ i ∈ [rejection 6], i.call.Legible) ∧
    (∃ e, ((rebuffed 6).engine.withFaults {}).act (.command .timeout) = .ok (e, [⟨.broadcast, request⟩]) ∧
      e.storage.lastIndex < 2 ^ 63) ∧
    Frame.decode (Frame.message request).encode = .ok (.message request) ∧
    7 ≤ peak [.message (rejected 6) (.peer "b"), .command .timeout] := by
  intro request
  have hi : ∀ i ∈ [rejection 6], i.call.Legible := List.forall_mem_singleton.mpr (rejected_legible (by decide))
  have ⟨e, ha, hl⟩ : ∃ e, ((rebuffed 6).engine.withFaults {}).act (.command .timeout) =
      .ok (e, [⟨.broadcast, request⟩]) ∧ e.storage.lastIndex < 2 ^ 63 := ⟨_, rfl, by decide⟩
  have h := legible_iff "a" [.peer "b"] ⟨fun _ => 0, 0⟩ {} hi ha hl _ (List.mem_singleton_self _)
  exact ⟨hi, ⟨e, ha, hl⟩, h.left.mpr (by decide), h.right⟩

theorem illegible_of_rejected :
    let request : Message := ⟨2 ^ 63, .voteRequest ⟨"a", 0, 0⟩⟩
    (∀ i ∈ [rejection (2 ^ 63 - 1)], i.call.Legible) ∧
    (∃ e, (rebuffed (2 ^ 63 - 1)).engine.act (.command .timeout) = .ok (e, [⟨.broadcast, request⟩])) ∧
    Frame.decode (Frame.message request).encode = .error (.negative "term" (-2 ^ 63)) := by
  intro request
  refine ⟨List.forall_mem_singleton.mpr (rejected_legible (by decide)), ⟨_, rfl⟩, ?_⟩
  decide +kernel

end Career
end RaftGroup
