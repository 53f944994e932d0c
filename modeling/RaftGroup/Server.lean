import RaftGroup.Text.Quoted

namespace RaftGroup

-- A member of a group as another member sees it, or as it sees itself. The two never stand for one another.
inductive Server
  | peer (id : String)
  | me (id : String)
  deriving DecidableEq, Repr, Inhabited

namespace Server

def id : Server → String
  | peer id => id
  | me id   => id

def asPeer (s : Server) : Server := peer s.id

def order : Server → Server → Ordering
  | peer _, me _   => .lt
  | me _, peer _   => .gt
  | peer a, peer b => compare a b
  | me a, me b     => compare a b

def insert (s : Server) : List Server → List Server
  | []      => [s]
  | t :: ts =>
    match s.order t with
    | .lt => s :: t :: ts
    | .eq => t :: ts
    | .gt => t :: insert s ts

def sort (ss : List Server) : List Server :=
  ss.foldr insert []

def text : Server → String
  | peer id => id
  | me id   => id ++ "(self)"

def record : Server → String
  | peer id => "ServerRef \x7b is_self: false, id: " ++ Text.quote id ++ " \x7d"
  | me id   => "ServerRef \x7b is_self: true, id: " ++ Text.quote id ++ " \x7d"

end Server
end RaftGroup
