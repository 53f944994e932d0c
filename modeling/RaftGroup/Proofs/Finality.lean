import RaftGroup.Proofs.Agreement

namespace RaftGroup

open Entries

inductive Call
  | command (c : Command)
  | message (m : Message) (sender : Server)

-- A call, and the faults of the medium during it. No call appends or cancels at the same position twice, so that faults
-- by position can refuse any of its attempts.
structure Incident where
  call : Call
  faults : Faults := {}

namespace Engine

variable {e e' : Engine}

def answer (e : Engine) : Call → Except Overflow Engine
  | .command c        => Prod.fst <$> e.obey c
  | .message m sender => Turn.engine <$> e.receive m sender

def yields (e : Engine) : Call → List Entry
  | .command (.take limit) => (e.takeCommitted limit).1
  | _                      => []

def withFaults (e : Engine) (faults : Faults) : Engine :=
  { e with storage := { e.storage with faults } }

theorem receive_peer (e : Engine) (m : Message) (s : Server) : e.receive m (.peer s.id) = e.receive m s := rfl

theorem receive_acts (h : e.receive m s = .ok turn) :
    e.Acts False [⟨⟨s.id, e.id, m⟩, none⟩] (some 0) turn.outcome := by
  refine hear_acts (p := ⟨⟨s.id, e.id, m⟩, none⟩) rfl rfl False.elim ?_
  rw [hear, receive_peer, h]
  rfl

theorem answer_acts (h : e.answer c = .ok e') (hc : ∀ n, c ≠ .command (.take n)) :
    ∃ post cause os, e.Acts False post cause (e', os) := by
  cases c
  case command c =>
    have ⟨⟨_, os⟩, ho, he⟩ := map_eq_ok_iff.mp h
    cases he
    exact ⟨[], none, os, obey_acts ho fun n hn => hc n (congrArg _ hn)⟩
  case message m s =>
    have ⟨turn, hr, he⟩ := map_eq_ok_iff.mp h
    cases he
    exact ⟨_, _, _, receive_acts hr⟩

theorem Acts.evolves (h : e.Acts sound post cause (e', os)) : e.gist.Evolves e'.gist := by
  have ⟨_, hb, hm, _⟩ := h.turn
  exact hb.evolves.trans hm.evolves

theorem takeCommitted_evolves (e : Engine) (limit : Nat) : e.gist.Evolves (e.takeCommitted limit).2.gist := by
  rw [(takeCommitted_spec limit e).left]
  exact .of_log_eq rfl rfl rfl rfl (Nat.le_refl _) (fun _ _ => rfl) (fun _ h => h) (fun _ h => h)

theorem le_applied_of_takeOne (hc : e.commit ≤ e.storage.log.entries.length) (h : e.takeOne = none) :
    e.commit ≤ e.applied := by
  rw [takeOne] at h
  split at h
  case isFalse hl => exact Nat.le_of_not_lt hl
  case isTrue hl =>
    have hn : e.applied < e.storage.log.entries.length := Nat.lt_of_lt_of_le hl hc
    simp only [Storage.takeNext, Log.takeNext, Option.map_eq_none_iff, Log.get?, Nat.succ_ne_zero, if_false,
      Nat.add_sub_cancel, List.getElem?_eq_none_iff] at h
    exact absurd hn (Nat.not_lt.mpr h)

theorem length_takeCommitted (hc : e.commit ≤ e.storage.log.entries.length) (limit : Nat) :
    (e.takeCommitted limit).1.length = min limit e.committedCount := by
  induction limit generalizing e
  case zero => exact (Nat.zero_min _).symm
  case succ limit hi =>
    rw [takeCommitted, committedCount]
    split
    case h_1 ho =>
      have := le_applied_of_takeOne hc ho
      rw [List.length_nil]
      omega
    case h_2 entry e' ho =>
      obtain ⟨hg, _⟩ := takeOne_eq_some ho
      have ha : e'.applied = e.applied + 1 := congrArg Gist.taken hg
      have hc' : e'.commit = e.commit := congrArg Gist.commit hg
      have hs : e'.storage.log.entries = e.storage.log.entries := congrArg Gist.log hg
      have hi := hi (by rwa [hc', hs])
      rw [committedCount, ha, hc'] at hi
      rw [List.length_cons, hi]
      omega

end Engine

namespace Log

variable {es : List Entry} {l log : Log}

theorem taken_of_foldlM_append (h : es.foldlM append l = .ok log) : log.taken = l.taken := by
  induction es generalizing l
  case nil => cases h; rfl
  case cons e es hi =>
    rw [List.foldlM_cons, append] at h
    split at h
    case isTrue  => exact hi (l := { l with entries := l.entries ++ [e] }) h
    case isFalse => cases h

theorem taken_ofEntries (h : ofEntries es = .ok log) : log.taken = 0 :=
  taken_of_foldlM_append (l := {}) h

end Log

structure Career where
  engine : Engine
  handed : List Entry := []

namespace Career

def start (id : String) (peers : List Server) (storage : Storage) (random : RandomSource) (config : Config) :
    Career where
  engine := .start id peers storage random config

def step (c : Career) (i : Incident) : Career :=
  let e := c.engine.withFaults i.faults
  match e.answer i.call with
  | .ok e'   => ⟨e', c.handed ++ e.yields i.call⟩
  | .error _ => c

def after (c : Career) (incidents : List Incident) : Career :=
  incidents.foldl step c

def log (c : Career) : Log := c.engine.storage.log

-- What has been handed out is the beginning of the log, and committed, and what is committed is in the log.
structure Settled (c : Career) : Prop where
  hands : Run.HandsOut c.engine c.handed
  le    : c.engine.commit ≤ c.log.entries.length

theorem settled_start (h : Log.ofEntries es = .ok l) (id : String) (peers : List Server) (faults : Faults)
    (random : RandomSource) (config : Config) : (start id peers ⟨l, faults⟩ random config).Settled where
  hands := by
    have ht := Log.taken_ofEntries h
    exact ⟨by simp [start, Engine.start, Engine.applied, ht], by simp [start, Engine.start, Engine.applied, ht]⟩
  le := Nat.zero_le _

theorem Settled.step {c : Career} (h : c.Settled) (i : Incident) :
    (c.step i).Settled ∧ c.engine.gist.Evolves (c.step i).engine.gist := by
  have hands : Run.HandsOut (c.engine.withFaults i.faults) c.handed := ⟨h.hands.eq, h.hands.le⟩
  have keep {e' : Engine} (he : c.engine.gist.Evolves e'.gist) : e'.commit ≤ e'.storage.log.entries.length :=
    (he.keeps h.le).left
  simp only [Career.step]
  split
  case h_2 => exact ⟨h, .refl _⟩
  case h_1 e' ha =>
    by_cases ht : ∃ n, i.call = .command (.take n)
    case pos =>
      have ⟨n, hn⟩ := ht
      rw [hn] at ha ⊢
      cases ha
      have he : c.engine.gist.Evolves _ := (c.engine.withFaults i.faults).takeCommitted_evolves n
      exact ⟨⟨hands.take n, keep he⟩, he⟩
    case neg =>
      have ⟨_, _, _, hm⟩ := Engine.answer_acts ha fun n hn => ht ⟨n, hn⟩
      have he : c.engine.gist.Evolves _ := hm.evolves
      have hy : (c.engine.withFaults i.faults).yields i.call = [] := by
        rw [Engine.yields]
        exact fun n hn => ht ⟨n, hn⟩
      rw [hy, List.append_nil]
      exact ⟨⟨hands.acts hm h.le, keep he⟩, he⟩

theorem Settled.after {c : Career} (h : c.Settled) (incidents : List Incident) :
    (c.after incidents).Settled ∧ c.engine.gist.Evolves (c.after incidents).engine.gist := by
  induction incidents generalizing c
  case nil => exact ⟨h, .refl _⟩
  case cons i incidents hi =>
    have ⟨hs, he⟩ := h.step i
    exact (hi hs).imp_right he.trans

-- What a member has committed stays committed and as it is, and all of it has been handed out, or is still to be handed
-- out, once and in order.
theorem committed_final (h : Log.ofEntries es = .ok l) (id : String) (peers : List Server) (faults : Faults)
    (random : RandomSource) (config : Config) (before later : List Incident) :
    let c  := (start id peers ⟨l, faults⟩ random config).after before
    let c' := c.after later
    c.engine.commit ≤ c'.engine.commit ∧
    c'.engine.applied ≤ c'.engine.commit ∧ c'.engine.commit ≤ c'.log.lastIndex ∧
    (∀ n, 0 < n → n ≤ c.engine.commit → ∃ e, c.log.get? n = some e ∧ c'.log.get? n = some e) ∧
    c'.handed = c'.log.entries.take c'.engine.applied ∧
    ∀ limit, (c'.engine.takeCommitted limit).1.length = min limit c'.engine.committedCount := by
  intro c c'
  have hs : c.Settled := ((settled_start h id peers faults random config).after before).left
  have ⟨hs', he⟩ : c'.Settled ∧ c.engine.gist.Evolves c'.engine.gist := hs.after later
  refine ⟨he.commit, hs'.hands.le, hs'.le, fun n h₀ hn => ?_, hs'.hands.eq, Engine.length_takeCommitted hs'.le⟩
  obtain ⟨k, rfl⟩ : ∃ k, n = k + 1 := ⟨n - 1, by omega⟩
  have hk : k < c.log.entries.length := Nat.lt_of_lt_of_le hn hs.le
  have hc : c.log.entries[k]? = some c.log.entries[k] := List.getElem?_eq_getElem hk
  have ht : c'.log.entries[k]? = c.log.entries[k]? := by
    have hp : c'.log.entries.take c.engine.commit = c.log.entries.take c.engine.commit := (he.keeps hs.le).right
    rw [← List.getElem?_take_of_lt hn, hp, List.getElem?_take_of_lt hn]
  exact ⟨c.log.entries[k], hc, ht.trans hc⟩

def orphan : Career :=
  start "a" [.peer "b"] ⟨⟨[⟨1, 1, .text [119]⟩], 0⟩, {}⟩ ⟨fun _ => 0, 0⟩ {}

def retried : List Incident :=
  let request : Message := ⟨2, .appendRequest ⟨"b", 1, 1, 3, [⟨2, 2, .text [120]⟩, ⟨2, 3, .text [121]⟩]⟩⟩
  [⟨.message request (.peer "b"), { refusesAppend := (· == 3) }⟩, ⟨.message request (.peer "b"), {}⟩,
    ⟨.command (.take 2), {}⟩]

-- Someone contradicts all that is committed.
def forged : List Incident :=
  [⟨.message ⟨9, .appendRequest ⟨"b", 0, 0, 7, [⟨9, 1, .binary [1]⟩]⟩⟩ (.peer "b"), {}⟩]

theorem committed_final_of_forged :
    Log.ofEntries [⟨1, 1, .text [119]⟩] = .ok ⟨[⟨1, 1, .text [119]⟩], 0⟩ ∧
    (orphan.after retried).engine.commit = 3 ∧ ((orphan.after retried).after forged).engine.term = 9 ∧
    ((orphan.after retried).after forged).handed = [⟨1, 1, .text [119]⟩, ⟨2, 2, .text [120]⟩] ∧
    3 ≤ ((orphan.after retried).after forged).log.lastIndex ∧
    ∃ e, (orphan.after retried).log.get? 3 = some e ∧ ((orphan.after retried).after forged).log.get? 3 = some e := by
  have hl : Log.ofEntries [⟨1, 1, .text [119]⟩] = .ok ⟨[⟨1, 1, .text [119]⟩], 0⟩ := rfl
  have hc : (orphan.after retried).engine.commit = 3 := by decide +kernel
  have ⟨hm, _, hi, hf, _⟩ := committed_final hl "a" [.peer "b"] {} ⟨fun _ => 0, 0⟩ {} retried forged
  change (orphan.after retried).engine.commit ≤ ((orphan.after retried).after forged).engine.commit at hm
  exact ⟨hl, hc, by decide +kernel, by decide +kernel, Nat.le_trans (hc ▸ hm) hi,
    hf 3 (by decide) (Nat.le_of_eq hc.symm)⟩

end Career
end RaftGroup
