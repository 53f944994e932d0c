import RaftGroup.Bus
import RaftGroup.Group
import RaftGroup.Replica
import RaftGroup.Transport.Host
import RaftGroup.Proofs.Pairing
import RaftGroup.Proofs.Finality
import RaftGroup.Proofs.Frames
import RaftGroup.Proofs.Stream
import RaftGroup.Proofs.Growth
import RaftGroup.Proofs.Pieces
import RaftGroup.Proofs.Audible
import RaftGroup.Proofs.Dialing
import RaftGroup.Proofs.Bookkeeping
import RaftGroup.Proofs.Copying
import RaftGroup.Proofs.Convergence
import RaftGroup.Proofs.Reception
import RaftGroup.Proofs.Custody
import RaftGroup.Proofs.Rereading
import RaftGroup.Proofs.Spelling
import RaftGroup.Proofs.Counting
import RaftGroup.Proofs.Promises
import RaftGroup.Proofs.Heartbeat
import RaftGroup.Proofs.Inbound
import RaftGroup.Proofs.FrameLength
import RaftGroup.Proofs.Journal
import RaftGroup.Proofs.Broadcast
import RaftGroup.Proofs.Bytewise
import RaftGroup.Proofs.Network
