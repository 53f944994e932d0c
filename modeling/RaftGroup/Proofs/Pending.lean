import RaftGroup.Proofs.Acts

namespace RaftGroup

theorem lookup_map [BEq α] (fs : List (α × β)) (g : β → γ) (a : α) :
    (fs.map fun f => (f.1, g f.2)).lookup a = (fs.lookup a).map g := by
  induction fs
  case nil          => rfl
  case cons f fs hi =>
    rw [List.map_cons, List.lookup_cons, List.lookup_cons, hi]
    split <;> rfl

namespace Leadership

variable {l : Leadership} {s t : Server} {r : Replication}

theorem replication?_update (l : Leadership) (s t : Server) (r : Replication) :
    (l.update s r).replication? t = if t = s then (l.replication? t).map fun _ => r else l.replication? t := by
  simp only [replication?, update]
  induction l.followers
  case nil          => split <;> rfl
  case cons f fs hi =>
    rw [List.map_cons, List.lookup_cons, List.lookup_cons, hi]
    by_cases ht : t = s
    case pos =>
      subst ht
      by_cases hf : t = f.1
      case pos => simp [hf]
      case neg => simp [Ne.symm hf, beq_false_of_ne hf]
    case neg =>
      by_cases hf : f.1 = s
      case pos => simp [hf, ht, beq_false_of_ne ht]
      case neg => simp [hf, ht]

end Leadership

namespace Engine

variable {e e' : Engine} {s t : Server}

theorem unanswered?_of_leader (h : e.standing = .leader l) (s : Server) :
    e.unanswered? s = ((knownOf l.followers).lookup s).map Prod.snd := by
  rw [knownOf, lookup_map l.followers (fun r => (r.matched, r.unanswered)) s, Option.map_map, unanswered?,
    replication?, h]
  rfl

theorem unanswered?_of_standing (h : e'.standing = e.standing) (s : Server) : e'.unanswered? s = e.unanswered? s := by
  rw [unanswered?, replication?, h]
  rfl

theorem unanswered?_update (e : Engine) (l : Leadership) (s t : Server) (r : Replication) :
    ({ e with standing := .leader (l.update t r) } : Engine).unanswered? s =
      if s = t then (l.replication? s).map fun _ => r.unanswered
      else (l.replication? s).map Replication.unanswered := by
  simp only [unanswered?, replication?, Leadership.replication?_update]
  split
  case isFalse => rfl
  case isTrue  => exact Option.map_map ..

theorem role_of_standing (h : e'.standing = e.standing) : e'.role = e.role := by
  rw [role, h, role]

theorem standing_of_role (h : e.role = .leader) : ∃ l, e.standing = .leader l := by
  rw [role] at h
  split at h
  case h_3 l hl => exact ⟨l, hl⟩
  all_goals cases h

theorem advanceCommit_standing (e : Engine) :
    e.advanceCommit.1.standing = e.standing ∧ e.advanceCommit.1.term = e.term := by
  rw [advanceCommit]
  repeat' split
  all_goals exact ⟨rfl, rfl⟩

def Fresh (e : Engine) : Prop :=
  ∀ s u, e.unanswered? s = some u → u = []

theorem becomeLeader_standing (h : e.becomeLeader = .ok (e', ns)) :
    (e'.standing = e.standing ∧ e'.term = e.term) ∨ (e.role = .candidate ∧ e'.Fresh) := by
  obtain ⟨rfl, _⟩ | ⟨c, hc, _, rfl⟩ := becomeLeader_eq_ok h
  case inl => exact .inl ⟨rfl, rfl⟩
  case inr =>
    refine .inr ⟨by rw [role, hc], fun s u hu => ?_⟩
    have hl := lookup_map (e.peers.map fun s => (s, ()))
      (fun _ => ({ next := e.storage.lastIndex + 1 } : Replication)) s
    rw [unanswered?_of_standing (advanceCommit_standing e.asLeader).left] at hu
    simp only [unanswered?, replication?, asLeader, Leadership.replication?] at hu
    rw [List.map_map, Function.comp_def] at hl
    rw [hl] at hu
    obtain ⟨known, hk, hu⟩ := Option.map_eq_some_iff.mp hu
    obtain ⟨_, _, hk⟩ := Option.map_eq_some_iff.mp hk
    rw [← hu, ← hk]

-- What a turn of a member that leads then has done to its account of one follower.
inductive Accounts (e : Engine) (s : Server) (heard : Option Letter) : Engine × List Outgoing → Prop
  | elected (role : e.role ≠ .leader) (fresh : after.Fresh) : Accounts e s heard (after, os)
  | kept (role : e.role = .leader) (term : after.term = e.term) (eq : after.unanswered? s = e.unanswered? s)
      (others : ∀ o ∈ os, ∀ r, o.message.rpc = .appendRequest r →
        ∃ t, t ≠ s ∧ o.dest = .to t ∧ (e.unanswered? t).isSome) :
    Accounts e s heard (after, os)
  | sent (role : e.role = .leader) (term : after.term = e.term)
      (eq : after.unanswered? s = (e.unanswered? s).map fun u =>
        (if maxUnanswered ≤ u.length then u.drop 1 else u) ++ [r.lastIndex]) :
    Accounts e s heard (after, [⟨.to s, ⟨e.term, .appendRequest r⟩⟩])
  | paired (role : e.role = .leader) (term : after.term = e.term) (letter : heard = some l)
      (sender : s = .peer l.sender) (reply : l.message = ⟨e.term, .appendReply success⟩)
      (eq : after.unanswered? s = (e.unanswered? s).map List.tail) : Accounts e s heard (after, [])

theorem Accounts.silent (hl : e.role = .leader) (ht : e'.term = e.term) (hu : e'.unanswered? s = e.unanswered? s) :
    Accounts e s heard (e', []) :=
  .kept hl ht hu nofun

theorem Accounts.of_standing (hl : e.role = .leader) (hs : e'.standing = e.standing) (ht : e'.term = e.term)
    (s : Server) : Accounts e s heard (e', []) :=
  .silent hl ht (unanswered?_of_standing hs s)

theorem timeout_elects (h : e.timeout = .ok turn) (hn : e.role ≠ .leader) (hl : turn.engine.role = .leader) :
    turn.engine.Fresh := by
  obtain ⟨hr, _⟩ | ⟨_, e₁, e₂, ns, h₁, h₂, rfl⟩ := timeout_eq_ok h
  case inl => exact absurd hr hn
  case inr =>
    obtain ⟨_, rfl⟩ := campaign_eq_ok h₁
    cases becomeLeader_standing h₂
    case inl hs => exact absurd (role_of_standing hs.left ▸ hl) (by simp [role])
    case inr hf => exact hf.right

theorem electionTick_elects (hw : ∀ n, (wait n).rank.role ≠ .leader) (h : e.electionTick ticks wait = .ok turn)
    (hn : e.role ≠ .leader) (hl : turn.engine.role = .leader) : turn.engine.Fresh := by
  obtain ⟨_, rfl⟩ | ⟨_, out, ho, rfl⟩ := electionTick_eq_ok h
  case inl => exact absurd ((gist_role _).trans hl) (hw _)
  case inr => exact (timeout_elects ho hn hl :)

theorem tick_elects (h : e.tick = .ok turn) (hn : e.role ≠ .leader) (hl : turn.engine.role = .leader) :
    turn.engine.Fresh := by
  rw [tick] at h
  split at h
  case h_1 => exact electionTick_elects (fun _ => by simp [Standing.rank, Rank.role]) h hn hl
  case h_2 => exact electionTick_elects (fun _ => by simp [Standing.rank, Rank.role]) h hn hl
  case h_3 he => exact absurd (by rw [role, he]) hn

theorem takeCommitted_standing (limit : Nat) (e : Engine) :
    (takeCommitted limit e).2.standing = e.standing ∧ (takeCommitted limit e).2.term = e.term := by
  induction limit generalizing e
  case zero => exact ⟨rfl, rfl⟩
  case succ limit hi =>
    rw [takeCommitted]
    split
    case h_1 => exact ⟨rfl, rfl⟩
    case h_2 e' ho =>
      rw [takeOne] at ho
      split at ho
      case isFalse => cases ho
      case isTrue =>
        obtain ⟨_, _, ho⟩ := Option.map_eq_some_iff.mp ho
        cases ho
        exact hi _

theorem obey_elects (h : e.obey c = .ok out) (hn : e.role ≠ .leader) (hl : out.1.role = .leader) : out.1.Fresh := by
  have hs : ∀ l, e.standing ≠ .leader l := fun l h => hn (by rw [role, h])
  cases c
  case tick =>
    obtain ⟨_, ht, rfl⟩ := map_eq_ok_iff.mp h
    exact tick_elects ht hn hl
  case timeout =>
    obtain ⟨_, ht, rfl⟩ := map_eq_ok_iff.mp h
    exact timeout_elects ht hn hl
  case submit =>
    obtain ⟨_, ht, rfl⟩ := map_eq_ok_iff.mp h
    obtain he | ⟨hr, _⟩ := submit_eq_ok ht
    case inl => exact absurd (he ▸ hl) hn
    case inr => exact absurd hr hn
  case replicate =>
    obtain ⟨_, ht, rfl⟩ := map_eq_ok_iff.mp h
    obtain ⟨⟨_, rfl⟩, _⟩ | ⟨_, _, _, _, he, _⟩ := replicateTo_eq_ok ht
    case inl => exact absurd hl hn
    case inr => exact absurd he (hs _)
  case take limit =>
    cases h
    exact absurd (role_of_standing (takeCommitted_standing limit e).left ▸ hl) hn

theorem tick_accounts (h : e.tick = .ok turn) (hl : e.role = .leader) (s : Server) :
    Accounts e s heard turn.outcome := by
  rw [tick] at h
  split at h
  case h_1 he => exact absurd hl (by simp [role, he])
  case h_2 he => exact absurd hl (by simp [role, he])
  case h_3 l he =>
    obtain ⟨⟨e', ns⟩, ht, h⟩ := bind_eq_ok_iff.mp h
    cases h
    obtain ⟨l', rfl, hk⟩ := leaderTick_eq_ok ht
    refine .silent hl rfl ?_
    rw [unanswered?_of_leader rfl, unanswered?_of_leader he, hk]

theorem replicateTo_accounts (h : e.replicateTo t = .ok turn) (hl : e.role = .leader) (s : Server) :
    Accounts e s heard turn.outcome := by
  obtain ⟨⟨_, rfl⟩, _⟩ | ⟨l, r, _, _, he, hr, _, _, rfl⟩ := replicateTo_eq_ok h
  case inl => exact .of_standing hl rfl rfl s
  case inr =>
    by_cases hs : s = t
    case pos =>
      subst hs
      refine .sent hl rfl ?_
      rw [unanswered?_update, if_pos rfl, unanswered?, replication?, he]
      simp only [hr, Option.map_some]
      rfl
    case neg =>
      refine .kept hl rfl ?_ fun o ho _ _ => ⟨t, Ne.symm hs, ?_, ?_⟩
      · rw [unanswered?_update, if_neg hs, unanswered?, replication?, he]
      · cases List.mem_singleton.mp ho
        rfl
      · simp only [unanswered?, replication?, he, hr, Option.map_some, Option.isSome_some]

theorem submit_standing (h : e.submit payload = .ok turn) :
    turn.engine.standing = e.standing ∧ turn.engine.term = e.term := by
  obtain he | ⟨_, storage, _, he⟩ := submit_eq_ok h
  case inl => rw [he]; exact ⟨rfl, rfl⟩
  case inr => rw [he]; exact advanceCommit_standing { e with storage }

theorem submit_accounts (h : e.submit payload = .ok turn) (hl : e.role = .leader) (s : Server) :
    Accounts e s heard (turn.engine, []) :=
  .of_standing hl (submit_standing h).left (submit_standing h).right s

theorem obey_accounts (h : e.obey c = .ok out) (hl : out.1.role = .leader) (s : Server) :
    Accounts e s none out := by
  by_cases he : e.role = .leader
  case neg => exact .elected he (obey_elects h he hl)
  case pos =>
    cases c
    case tick =>
      obtain ⟨_, ht, rfl⟩ := map_eq_ok_iff.mp h
      exact tick_accounts ht he s
    case timeout =>
      obtain ⟨_, ht, rfl⟩ := map_eq_ok_iff.mp h
      obtain ⟨_, rfl⟩ | ⟨hn, _⟩ := timeout_eq_ok ht
      case inl => exact .of_standing he rfl rfl s
      case inr => exact absurd he hn
    case submit =>
      obtain ⟨_, ht, rfl⟩ := map_eq_ok_iff.mp h
      exact submit_accounts ht he s
    case replicate =>
      obtain ⟨_, ht, rfl⟩ := map_eq_ok_iff.mp h
      exact replicateTo_accounts ht he s
    case take limit =>
      cases h
      have ht := takeCommitted_standing limit e
      exact .of_standing he ht.left ht.right s

-- A reply to a request for entries is matched with the oldest one that is unanswered, if there is any.
theorem readAppendReply_unanswered? (h : e.readAppendReply success t = .ok (e', ns)) (s : Server) :
    e'.role = e.role ∧ e'.term = e.term ∧
      e'.unanswered? s = if s = t then (e.unanswered? s).map List.tail else e.unanswered? s := by
  rw [readAppendReply] at h
  split at h
  case h_2 hn =>
    cases h
    have hu : e.unanswered? s = none := by
      rw [unanswered?, replication?]
      split
      case h_1 hl => exact absurd hl (hn _)
      case h_2    => rfl
    rw [hu, Option.map_none, ite_self]
    exact ⟨rfl, rfl, rfl⟩
  case h_1 l hl =>
    have he : e.unanswered? s = (l.replication? s).map Replication.unanswered := by rw [unanswered?, replication?, hl]
    split at h
    case h_1 hr =>
      cases h
      refine ⟨rfl, rfl, ?_⟩
      split
      case isFalse   => rfl
      case isTrue hs => rw [he, hs, hr]; rfl
    case h_2 r hr =>
      split at h
      case h_1 hu =>
        cases h
        refine ⟨rfl, rfl, ?_⟩
        split
        case isFalse   => rfl
        case isTrue hs => rw [he, hs, hr, Option.map_some, hu]; rfl
      case h_2 oldest rest hu =>
        have paired {r' : Replication} (hr' : r'.unanswered = rest) :
            ({ e with standing := .leader (l.update t r') } : Engine).unanswered? s =
              if s = t then (e.unanswered? s).map List.tail else e.unanswered? s := by
          rw [he, unanswered?_update]
          split
          case isFalse   => rfl
          case isTrue hs => rw [hs, hr, Option.map_some, Option.map_some, Option.map_some, hr', hu, List.tail_cons]
        split at h <;>
        · obtain ⟨_, ha, h⟩ := bind_eq_ok_iff.mp h
          cases h
          obtain ⟨_, _, ha⟩ := bind_eq_ok_iff.mp ha
          cases ha
          exact ⟨by rw [role, role, hl], rfl, paired rfl⟩

theorem noteCommit_standing (e : Engine) (n : Nat) : (e.noteCommit n).1.standing = e.standing := by
  rw [noteCommit]
  split <;> rfl

theorem mergeRequest_standing (h : e.mergeRequest r t = .ok turn) : turn.engine.standing = e.standing := by
  rw [mergeRequest] at h
  split at h
  case isFalse => split at h <;> cases h <;> rfl
  case isTrue =>
    obtain ⟨_, _, h⟩ := bind_eq_ok_iff.mp h
    split at h
    case isFalse => cases h; rfl
    case isTrue =>
      obtain ⟨last, _, h⟩ := bind_eq_ok_iff.mp h
      obtain ⟨m, _, h⟩ := bind_eq_ok_iff.mp h
      split at h
      case isFalse => cases h; rfl
      case isTrue =>
        have hn := noteCommit_standing { e with storage := m.storage } (min r.commit last)
        dsimp only at h
        generalize noteCommit _ _ = n at h hn
        cases h
        exact hn

theorem answerAppend_engine (h : e.answerAppend n r t = .ok turn) (hr : turn.engine.role ≠ .follower) :
    turn.engine = e := by
  obtain ⟨taken, ht, h⟩ := bind_eq_ok_iff.mp h
  cases h
  rw [takeRequest] at ht
  split at ht
  case isTrue => cases ht; rfl
  case isFalse =>
    split at ht
    case h_1 hf =>
      cases ht
      exact ((follow_gist hf).resolve_right fun h => absurd h.left (by decide)).right
    case h_2 e₁ ns hf =>
      obtain ⟨merged, hm, ht⟩ := bind_eq_ok_iff.mp ht
      cases ht
      obtain ⟨_, _, hg⟩ := (follow_gist hf).resolve_left fun h => absurd h.left (by decide)
      have hr₁ : e₁.role = .follower := by rw [← gist_role, hg]; rfl
      exact absurd ((role_of_standing (mergeRequest_standing hm)).trans hr₁) hr

theorem giveVote_standing (e : Engine) (t s : Server) :
    (e.giveVote t).role = e.role ∧ (e.giveVote t).unanswered? s = e.unanswered? s := by
  cases h : e.standing <;> simp [giveVote, role, unanswered?, replication?, h]

theorem countVote_standing (e : Engine) (granted : Bool) (t s : Server) :
    (e.countVote granted t).1.role = e.role ∧ (e.countVote granted t).1.term = e.term ∧
      (e.countVote granted t).1.unanswered? s = e.unanswered? s := by
  rw [countVote]
  split
  case h_2 => exact ⟨rfl, rfl, rfl⟩
  case h_1 c hc =>
    split
    case isFalse => exact ⟨rfl, rfl, rfl⟩
    case isTrue  => simp [role, unanswered?, replication?, hc]

theorem countVote_eq (e : Engine) (granted : Bool) (s : Server) :
    ∃ standing, (e.countVote granted s).1 = { e with standing } := by
  rw [countVote]
  repeat' split
  case isTrue  => exact ⟨_, rfl⟩
  case isFalse => exact ⟨e.standing, rfl⟩
  case h_2     => exact ⟨e.standing, rfl⟩

theorem readAppendReply_eq (h : e.readAppendReply success s = .ok (e', ns)) :
    ∃ standing, e' = { e with standing } := by
  rw [readAppendReply] at h
  split at h
  case h_2 => cases h; exact ⟨e.standing, rfl⟩
  case h_1 =>
    repeat' split at h
    case h_1         => cases h; exact ⟨e.standing, rfl⟩
    case h_1         => cases h; exact ⟨e.standing, rfl⟩
    case h_2.isTrue  => obtain ⟨_, _, h⟩ := bind_eq_ok_iff.mp h; cases h; exact ⟨_, rfl⟩
    case h_2.isFalse => obtain ⟨_, _, h⟩ := bind_eq_ok_iff.mp h; cases h; exact ⟨_, rfl⟩

theorem adoptTerm_storage (e : Engine) (s : Server) (m : Message) :
    (e.adoptTerm s m).1.storage = e.storage ∧ (e.adoptTerm s m).1.commit = e.commit := by
  rw [adoptTerm]
  split <;> exact ⟨rfl, rfl⟩

theorem handle_eq (h : e.handle s m = .ok turn) (hr : turn.engine.role ≠ .follower) :
    ∃ vote standing, turn.engine = { e with vote, standing } := by
  rw [handle] at h
  split at h
  case isTrue  => cases h; exact ⟨e.vote, e.standing, rfl⟩
  case isFalse =>
    split at h
    case h_1 =>
      cases h
      rw [answerVote]
      dsimp only
      split
      case isTrue  => exact ⟨_, _, rfl⟩
      case isFalse => exact ⟨e.vote, e.standing, rfl⟩
    case h_2 granted _ =>
      cases h
      exact ⟨e.vote, e.countVote_eq granted s⟩
    case h_3 => exact ⟨e.vote, e.standing, answerAppend_engine h hr⟩
    case h_4 =>
      obtain ⟨⟨e', ns⟩, ha, h⟩ := bind_eq_ok_iff.mp h
      cases h
      exact ⟨e.vote, readAppendReply_eq ha⟩

theorem handle_accounts (hm : m.term ≤ e.term) (h : e.handle t m = .ok turn) (hr : turn.engine.role ≠ .follower)
    (s : Server) : turn.engine.role = e.role ∧ turn.engine.term = e.term ∧
      (turn.engine.unanswered? s = e.unanswered? s ∨
        (s = t ∧ turn.result = none ∧ (∃ success, m = ⟨e.term, .appendReply success⟩) ∧
          turn.engine.unanswered? s = (e.unanswered? s).map List.tail)) := by
  rw [handle] at h
  split at h
  case isTrue => cases h; exact ⟨rfl, rfl, .inl rfl⟩
  case isFalse hn =>
    split at h
    case h_1 r _ =>
      cases h
      rw [answerVote]
      simp only [decide_eq_true_eq]
      have hg := giveVote_standing e t s
      split
      case isFalse => exact ⟨rfl, rfl, .inl rfl⟩
      case isTrue  => exact ⟨hg.left, rfl, .inl hg.right⟩
    case h_2 granted _ =>
      have hc := countVote_standing e granted t s
      cases h
      exact ⟨hc.left, hc.right.left, .inl hc.right.right⟩
    case h_3 =>
      have he := answerAppend_engine h hr
      exact ⟨by rw [he], by rw [he], .inl (by rw [he])⟩
    case h_4 success hs =>
      obtain ⟨_, ha, h⟩ := bind_eq_ok_iff.mp h
      cases h
      obtain ⟨hr, ht, hu⟩ := readAppendReply_unanswered? ha s
      have hn : m.term = e.term := Nat.le_antisymm hm (Nat.le_of_not_lt fun hl => hn ⟨by rw [hs]; rfl, hl⟩)
      refine ⟨hr, ht, ?_⟩
      split at hu
      case isFalse   => exact .inl hu
      case isTrue he => exact .inr ⟨he, rfl, ⟨success, by rw [← hn, ← hs]⟩, hu⟩

theorem handle_result (h : e.handle t m = .ok turn) (ho : o ∈ turn.result) :
    ∃ reply, o = ⟨.to t, reply⟩ ∧ reply.rpc.isReply = true := by
  rw [handle] at h
  split at h
  case isTrue => cases h; cases ho
  case isFalse =>
    split at h
    case h_1 => cases h; cases ho; exact ⟨_, rfl, rfl⟩
    case h_2 => cases h; cases ho
    case h_3 =>
      obtain ⟨_, _, h⟩ := bind_eq_ok_iff.mp h
      cases h
      cases ho
      exact ⟨_, rfl, rfl⟩
    case h_4 =>
      obtain ⟨_, _, h⟩ := bind_eq_ok_iff.mp h
      cases h
      cases ho

theorem hear_replies (h : e.hear l = .ok out) :
    out.2 = [] ∨ ∃ m, out.2 = [⟨.to (.peer l.sender), m⟩] ∧ m.rpc.isReply = true := by
  obtain ⟨turn, ht, rfl⟩ := map_eq_ok_iff.mp h
  obtain ⟨_, rfl⟩ | ⟨_, replied, _, _, _, hh, _, rfl⟩ := receive_eq_ok ht
  case inl => exact .inl rfl
  case inr =>
    rw [Turn.outcome]
    cases ho : replied.result
    case none   => exact .inl rfl
    case some o =>
      obtain ⟨m, rfl, hm⟩ := handle_result hh ho
      exact .inr ⟨m, rfl, hm⟩

theorem hear_rpc_ne (h : e.hear l = .ok out) (ho : o ∈ out.2) (r : AppendRequest) :
    o.message.rpc ≠ .appendRequest r := by
  intro hr
  cases hear_replies h
  case inl hn => rw [hn] at ho; cases ho
  case inr hm =>
    obtain ⟨m, hm, hi⟩ := hm
    rw [hm] at ho
    cases List.mem_singleton.mp ho
    rw [show m.rpc = .appendRequest r from hr] at hi
    cases hi

theorem receive_accounts (h : e.receive m (.peer i) = .ok turn) (hl : turn.engine.role = .leader) (s : Server) :
    (e.role ≠ .leader ∧ turn.engine.Fresh) ∨ (e.role = .leader ∧ turn.engine.term = e.term ∧
      (turn.engine.unanswered? s = e.unanswered? s ∨
        (s = .peer i ∧ turn.result = none ∧ (∃ success, m = ⟨e.term, .appendReply success⟩) ∧
          turn.engine.unanswered? s = (e.unanswered? s).map List.tail))) := by
  obtain ⟨_, rfl⟩ | ⟨_, replied, e₂, ns, _, hh, he, rfl⟩ := receive_eq_ok h
  case inl => exact .inr ⟨hl, rfl, .inl rfl⟩
  case inr =>
    change (e.adoptTerm (.peer i) m).1.handle (.peer i) m = _ at hh
    have ha := advanceCommit_standing e₂
    have hl₂ : e₂.role = .leader := role_of_standing ha.left ▸ hl
    have hb := becomeLeader_standing he
    have hr : replied.engine.role ≠ .follower := by
      cases hb
      case inl hs => rw [← role_of_standing hs.left, hl₂]; decide
      case inr hc => rw [hc.left]; decide
    -- A later term would have made a follower of it.
    have hm : ¬e.term < m.term := fun hm => by
      have hf : (e.adoptTerm (.peer i) m).1.role = .follower := by rw [adoptTerm, if_pos hm, role]
      exact hr ((handle_accounts (adoptTerm_le e (.peer i) m) hh hr s).left.trans hf)
    have ha' : e.adoptTerm (.peer i) m = (e, []) := by rw [adoptTerm, if_neg hm]
    rw [ha'] at hh
    obtain ⟨hr, ht, hu⟩ := handle_accounts (Nat.le_of_not_lt hm) hh hr s
    cases hb
    case inr hc =>
      refine .inl ⟨by rw [← hr, hc.left]; decide, fun t u hu => hc.right t u ?_⟩
      exact (unanswered?_of_standing ha.left t).symm.trans hu
    case inl hs =>
      have hk : e₂.advanceCommit.1.unanswered? s = replied.engine.unanswered? s :=
        unanswered?_of_standing (ha.left.trans hs.left) s
      refine .inr ⟨by rw [← hr, ← role_of_standing hs.left, hl₂], ha.right.trans (hs.right.trans ht), ?_⟩
      exact hu.imp hk.trans (And.imp_right (And.imp_right (And.imp_right hk.trans)))

theorem hear_accounts (h : e.hear l = .ok out) (hl : out.1.role = .leader) (s : Server) :
    Accounts e s (some l) out := by
  have hn := fun o ho => hear_rpc_ne (o := o) h ho
  obtain ⟨turn, ht, rfl⟩ := map_eq_ok_iff.mp h
  obtain ⟨hr, hf⟩ | ⟨hr, ht, hu | ⟨hs, ho, ⟨success, hm⟩, hu⟩⟩ := receive_accounts ht hl s
  · exact .elected hr hf
  · exact .kept hr ht hu fun o ho r hr => absurd hr (hn o ho r)
  · rw [Turn.outcome, ho]
    exact .paired hr ht rfl hs hm hu

end Engine
end RaftGroup
