/-!
# Quoted names

Quotes, backslashes and control characters of a name are escaped, so that the quoted name shows
where it ends.
-/

namespace ScopedRewriting

/-- The digits of a number in base sixteen, without leading zeros. -/
def hexDigits (n : Nat) : String :=
  String.ofList (Nat.toDigits 16 n)

def escaped (c : Char) : String :=
  if c == '"' then "\\\""
  else if c == '\\' then "\\\\"
  else if c == '\n' then "\\n"
  else if c == '\r' then "\\r"
  else if c == '\t' then "\\t"
  else if c == '\x00' then "\\0"
  else if c.toNat < 32 || c.toNat == 127 then "\\u\x7b" ++ hexDigits c.toNat ++ "\x7d"
  else c.toString

def quoted (name : String) : String :=
  "\"" ++ String.join (name.toList.map escaped) ++ "\""

end ScopedRewriting
