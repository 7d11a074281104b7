import TreeWalk.Text.Unprintable

/-!
# Quoted names

The name of a file is shown between quotes: single ones, or double ones if the name
holds a single and no double quote. The quote in use and the backslash are escaped by
a backslash, characters that cannot be seen by their code.
-/

namespace TreeWalk.CommandLine

/-- The quote that is used if possible. -/
def singleQuote : Char := Char.ofNat 39

/-- The other quote. -/
def doubleQuote : Char := Char.ofNat 34

/-- The character that begins every escape. -/
def backslash : Char := Char.ofNat 92

/-- The last hexadecimal digits of a code, as many as asked for. -/
def hexDigits (code : Nat) : Nat → List Char
  | 0 => []
  | count + 1 => hexDigits (code / 16) count ++ [Nat.digitChar (code % 16)]

@[simp] theorem length_hexDigits (code count : Nat) :
    (hexDigits code count).length = count := by
  induction count generalizing code with
  | zero => rfl
  | succ count ih => simp [hexDigits, ih]

/-- The shortest escape that has room for a code: two digits, four or eight. -/
def codeEscape (code : Nat) : List Char :=
  if code < 0x100 then backslash :: 'x' :: hexDigits code 2
  else if code < 0x10000 then backslash :: 'u' :: hexDigits code 4
  else backslash :: 'U' :: hexDigits code 8

/-- A character between quotes. -/
def quoteChar (quote c : Char) : List Char :=
  if c = quote || c = backslash then [backslash, c]
  else if c = '\n' then [backslash, 'n']
  else if c = '\r' then [backslash, 'r']
  else if c = '\t' then [backslash, 't']
  else if Text.isPrintable c then [c]
  else codeEscape c.toNat

/-- A name between quotes. -/
def quoted (name : String) : String :=
  let text := name.toList
  let quote :=
    if text.contains singleQuote && !text.contains doubleQuote then doubleQuote
    else singleQuote
  String.ofList (quote :: text.flatMap (quoteChar quote) ++ [quote])

end TreeWalk.CommandLine
