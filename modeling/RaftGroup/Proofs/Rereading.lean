import Mathlib.Control.Monad.Basic
import RaftGroup.Proofs.Pieces

namespace RaftGroup.Resp

namespace Receiver

inductive Poll
  | feed (bytes : Bytes)
  | parse

def poll (r : Receiver) : Poll → Except Error Outcome × Receiver
  | .feed bytes => r.feed bytes
  | .parse      => r.parse

def trace (r : Receiver) : List Poll → List (Except Error Outcome × Receiver)
  | []         => []
  | p :: polls => r.poll p :: (r.poll p).2.trace polls

end Receiver

structure Rereader where
  limit : Nat
  buffer : Bytes := []
  deriving DecidableEq, Repr

namespace Rereader

open Receiver (Poll)

def parse (r : Rereader) : Except Error Outcome × Rereader :=
  match Resp.parse r.limit maxDepth r.buffer with
  | .error e               => (.error e, r)
  | .ok (.done v consumed) =>
    if r.limit < consumed then (.error (.frameTooLarge r.limit), r)
    else (.ok (.value v), { r with buffer := r.buffer.drop consumed })
  | .ok (.incomplete need) =>
    if r.limit < need ∨ r.limit < r.buffer.length then (.error (.frameTooLarge r.limit), r)
    else (.ok .needMore, r)

def push (r : Rereader) (bytes : Bytes) : Rereader :=
  { r with buffer := r.buffer ++ bytes }

def poll (r : Rereader) : Poll → Except Error Outcome × Rereader
  | .feed bytes => (r.push bytes).parse
  | .parse      => r.parse

def trace (r : Rereader) : List Poll → List (Except Error Outcome × Rereader)
  | []         => []
  | p :: polls => r.poll p :: (r.poll p).2.trace polls

theorem parse_of_incomplete {r : Rereader} (h : Resp.parse r.limit maxDepth r.buffer = .ok (.incomplete need))
    (hn : need ≤ r.limit) : r.parse = (.ok .needMore, r) := by
  have hb := Receiver.incomplete_bounds h
  simp only [parse, h]
  rw [if_neg (by omega)]

end Rereader

namespace Receiver

variable {r : Receiver}

def forget (r : Receiver) : Rereader :=
  ⟨r.limit, r.buffer⟩

-- Less than what is missing makes no difference.
def Stalls (r : Receiver) : Prop :=
  0 < r.missing ∧ ∀ more : Bytes, more.length < r.missing → (r.forget.push more).parse.1 = .ok .needMore

structure Agrees (look : Except Error Outcome × Receiver) (again : Except Error Outcome × Rereader) : Prop where
  answer : again = (look.1, look.2.forget)
  kept   : look.2.Kept
  stalls : look.1 = .ok .needMore → look.2.Stalls

theorem Kept.stalls (h : r.Kept) (hs : r.buffer.length < r.need) : r.Stalls := by
  refine ⟨Nat.sub_pos_of_lt hs, fun more hm => ?_⟩
  rw [missing] at hm
  have hw : (r.push more).Waits := by
    change (r.buffer ++ more).length < r.need
    rw [List.length_append]
    omega
  have hp : (r.forget.push more).parse = (.ok .needMore, r.forget.push more) :=
    Rereader.parse_of_incomplete ((h.push more).waits hw) h.bound
  rw [hp]

theorem Kept.parse_agrees (h : r.Kept) : Agrees r.parse r.forget.parse := by
  rw [parse]
  split
  case isTrue hw =>
    rw [wait_eq_ok hw h.bound]
    exact ⟨Rereader.parse_of_incomplete (h.waits hw) h.bound, h, fun _ => h.stalls hw⟩
  case isFalse =>
    rw [parseAnew, Rereader.parse, show r.forget.limit = r.limit from rfl, show r.forget.buffer = r.buffer from rfl]
    rcases hp : Resp.parse r.limit maxDepth r.buffer with e | (⟨v, n⟩ | need)
    case error => exact ⟨rfl, h, fun ha => by cases ha⟩
    case ok.done =>
      simp only
      split
      case isTrue  => exact ⟨rfl, h, fun ha => by cases ha⟩
      case isFalse => exact ⟨rfl, ⟨Nat.zero_le _, fun hw => absurd hw (Nat.not_lt_zero _)⟩, fun ha => by cases ha⟩
    case ok.incomplete =>
      have hb := incomplete_bounds hp
      simp only
      by_cases hl : r.limit < need
      case pos =>
        rw [if_pos hl, if_pos (.inl hl)]
        exact ⟨rfl, h, fun ha => by cases ha⟩
      case neg =>
        have hk : ({ r with need } : Receiver).Kept := ⟨Nat.le_of_not_lt hl, fun _ => hp⟩
        have hw : ({ r with need } : Receiver).wait = .ok .needMore := wait_eq_ok hb (Nat.le_of_not_lt hl)
        rw [if_neg hl, if_neg (by omega), hw]
        exact ⟨rfl, hk, fun _ => hk.stalls hb⟩

theorem Kept.poll_agrees (h : r.Kept) : (p : Poll) → Agrees (r.poll p) (r.forget.poll p)
  | .feed bytes => (h.push bytes).parse_agrees
  | .parse      => h.parse_agrees

theorem Kept.trace_agrees (h : r.Kept) (polls : List Poll) :
    r.forget.trace polls = (r.trace polls).map (fun look => (look.1, look.2.forget)) ∧
    ∀ look ∈ r.trace polls, look.1 = .ok .needMore → look.2.Stalls := by
  induction polls generalizing r
  case nil             => exact ⟨rfl, nofun⟩
  case cons p polls ih =>
    have ha := h.poll_agrees p
    have ⟨ht, hs⟩ := ih ha.kept
    rw [Rereader.trace, trace, ha.answer, List.map_cons, ht, List.forall_mem_cons]
    exact ⟨rfl, ha.stalls, hs⟩

-- Whatever is fed and asked, also after a fault, the answers and the buffers are those of a receiver that looks at its
-- whole buffer every time. Whenever more is needed, it is at least as much as is said to be missing: with fewer bytes
-- there is neither a value nor a fault to be found, however they are looked at.
theorem trace_reread (limit : Nat) (polls : List Poll) :
    let looks := ({ limit } : Receiver).trace polls
    ({ limit } : Rereader).trace polls = looks.map (fun look => (look.1, look.2.forget)) ∧
    ∀ look ∈ looks, look.1 = .ok .needMore →
      0 < look.2.missing ∧
      ∀ more : Bytes, more.length < look.2.missing → (look.2.forget.push more).parse.1 = .ok .needMore := by
  exact (Kept.fresh limit).trace_agrees polls

def inParts : List Poll :=
  [.feed [0x2A, 0x31, 13, 10, 0x24, 0x33, 13, 10, 102, 111], .parse, .feed [111], .feed [13, 10, 0x29], .parse,
    .feed [0x2B]]

theorem trace_reread_of_inParts :
    let looks := ({ limit := 24 } : Receiver).trace inParts
    looks.map (·.1) = [.ok .needMore, .ok .needMore, .ok .needMore, .ok (.value (.array [.bulk [102, 111, 111]])),
      .error (.unknownSymbol 0x29), .error (.unknownSymbol 0x29)] ∧
    (({ limit := 24 } : Rereader).trace inParts).map (·.1) = looks.map (·.1) ∧
    ∃ look ∈ looks, look.2.missing = 2 ∧ (look.2.forget.push [13]).parse.1 = .ok .needMore := by
  intro looks
  have ⟨ht, hs⟩ := trace_reread 24 inParts
  have hl : looks.map (·.1) = [.ok .needMore, .ok .needMore, .ok .needMore,
      .ok (.value (.array [.bulk [102, 111, 111]])), .error (.unknownSymbol 0x29), .error (.unknownSymbol 0x29)] := by
    decide +kernel
  obtain ⟨look, hm, hn⟩ : ∃ look ∈ looks, look.1 = .ok .needMore ∧ look.2.missing = 2 :=
    ⟨_, List.mem_of_getElem? (show looks[2]? = some _ from rfl), by decide +kernel, by decide +kernel⟩
  refine ⟨hl, by rw [ht, List.map_map]; rfl, look, hm, hn.right, ?_⟩
  exact (hs look hm hn.left).right [13] (by rw [hn.right]; decide)

end Receiver
end RaftGroup.Resp
