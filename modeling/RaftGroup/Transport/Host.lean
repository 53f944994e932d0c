import RaftGroup.Transport.Station

namespace RaftGroup

namespace Address

def portText? (address : String) : Option String :=
  if ':' ∈ address.toList then some (String.ofList (address.toList.reverse.takeWhile (· ≠ ':')).reverse)
  else none

def port? (text : String) : Option Nat :=
  let digits := match Bytes.ofString text with
    | 0x2B :: bs => bs
    | bs         => bs
  Decimal.nat? UInt16.size digits

def fault? (address : String) : Option HostError :=
  match portText? address with
  | none      => some .invalidAddress
  | some text => if (port? text).isNone then some .invalidPort else none

end Address

namespace Station

-- Listens on the address of the configuration. Without an id of its own the station goes by the address that it was
-- given.
def start (config : TransportConfig) (bound : String) (handlers : Handlers) : Except TransportError Station :=
  match Address.fault? config.listenAddress with
  | some cause => .error (.bind config.listenAddress cause)
  | none       =>
    .ok { id := config.nodeId.getD bound, handlers, maxFrameLength := config.maxFrameLength }

def dialFailure (address : String) : HostError :=
  (Address.fault? address).getD .unreachable

def failDials (s : Station) : List Signal → Station × List Signal
  | []                   => (s, [])
  | .dial peer c :: rest =>
    let (s, failed) := s.control (.connectFailed peer c (dialFailure peer.id))
    let (s, rest) := s.failDials rest
    (s, failed ++ rest)
  | signal :: rest =>
    let (s, rest) := s.failDials rest
    (s, signal :: rest)

def controlUnreachable (s : Station) (c : Control) : Station × List Signal :=
  let (s, signals) := s.control c
  s.failDials signals

end Station
end RaftGroup
