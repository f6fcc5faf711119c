import TexLint.Text.Whitespace

/-!
# The interior of a group

A parameter is written with its delimiters. This module takes them off a text: the
opening one always, the closing one only if it belongs to the opening one, so that a
group which the source cuts off keeps all it holds.
-/

namespace TexLint

/-- Whether the last character of a text is the brace that closes a group opened just
before the text. `depth` counts the groups opened since; a backslash takes the meaning
of the character after it. -/
def endsBraceGroup (depth : Nat) : Text → Bool
  | [] => false
  | c :: rest =>
    if c = '\\' then
      match rest with
      | [] => false
      | _ :: rest => endsBraceGroup depth rest
    else if c = '{' then endsBraceGroup (depth + 1) rest
    else if c = '}' then
      match depth with
      | 0 => rest.isEmpty
      | depth + 1 => endsBraceGroup depth rest
    else endsBraceGroup depth rest

/-- A group without its delimiters: the first character goes, and the last one if it
closes what the first one opens. -/
def stripGroup : Text → Text
  | [] => []
  | c :: rest =>
    let closed :=
      if c = '{' then endsBraceGroup 0 rest
      else c == '[' && rest.getLast? == some ']'
    if closed then rest.dropLast else rest

end TexLint
