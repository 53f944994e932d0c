import RaftGroup.Text.Invisible

namespace RaftGroup.Text

def hex (n : Nat) : String :=
  String.ofList (Nat.toDigits 16 n)

def escape : Char → String
  | '\x00' => "\\0"
  | '\t'   => "\\t"
  | '\r'   => "\\r"
  | '\n'   => "\\n"
  | '"'    => "\\\""
  | '\\'   => "\\\\"
  | c      => if isInvisible c then "\\u\x7b" ++ hex c.toNat ++ "\x7d" else c.toString

-- An apostrophe is not escaped.
def quote (s : String) : String :=
  "\"" ++ String.join (s.toList.map escape) ++ "\""

def hexByte (b : UInt8) : String :=
  (if b < 0x10 then "0x0" else "0x") ++ hex b.toNat

end RaftGroup.Text
