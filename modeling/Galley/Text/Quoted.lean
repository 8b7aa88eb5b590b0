/-! Characters and strings as they are quoted in messages: a backslash before quotes, backslashes and the
usual control characters, and a hexadecimal escape for what cannot be shown. -/

namespace Galley.Text

def hexDigits (n : Nat) : String := String.ofList (Nat.toDigits 16 n)

/-- Control and format characters, spaces but the plain one, private characters, noncharacters and the marks
that combine with any letter are not shown as they are. The ranges only approximate the classes: characters not
yet assigned and the combining marks of single scripts are in none of them and count as shown. -/
def isShown (c : Char) : Bool :=
  let n := c.toNat
  !(n < 0x20 || (0x7F ≤ n && n ≤ 0xA0) || n == 0xAD || n == 0x1680 || n == 0x180E ||
    (0x2000 ≤ n && n ≤ 0x200F) || (0x2028 ≤ n && n ≤ 0x202F) || (0x205F ≤ n && n ≤ 0x206F) ||
    n == 0x3000 || (0xE000 ≤ n && n ≤ 0xF8FF) || n == 0xFEFF || (0xFFF0 ≤ n && n ≤ 0xFFFB) ||
    n % 0x10000 == 0xFFFE || n % 0x10000 == 0xFFFF || (0xE0000 ≤ n && n ≤ 0xE00FF) ||
    (0x300 ≤ n && n ≤ 0x36F) || 0xE01F0 ≤ n)

def escape (quote c : Char) : String :=
  if c == quote || c == '\\' then String.ofList ['\\', c]
  else if c == '\x00' then "\\0"
  else if c == '\t' then "\\t"
  else if c == '\r' then "\\r"
  else if c == '\n' then "\\n"
  else if isShown c then c.toString
  else "\\u\x7b" ++ hexDigits c.toNat ++ "\x7d"

def quotedChar (c : Char) : String := "'" ++ escape '\'' c ++ "'"

def quoted (s : String) : String := "\"" ++ String.join (s.toList.map (escape '"')) ++ "\""

end Galley.Text
