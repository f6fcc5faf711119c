import TexLint.Source.Parameter
import TexLint.Ordered

/-!
# Options in bracket groups

The bracket groups of a command hold options, `key` or `key=value`, with commas between
them. Several groups read like one that holds all their options.
-/

namespace TexLint

/-- The parts of a text between the occurrences of a character. -/
def splitOnChar (sep : Char) : Text → List Text
  | [] => [[]]
  | c :: rest =>
    if c = sep then [] :: splitOnChar sep rest
    else
      match splitOnChar sep rest with
      | [] => [[c]]
      | part :: parts => (c :: part) :: parts

/-- Options and their values, in the order in which the options first come. -/
abbrev OptionMap := OrderedMap String String

/-- The option and the value that a piece between two commas gives. A piece without an
equals sign is an option with an empty value. -/
def optionOfPiece (piece : Text) : String × String :=
  let key := piece.takeWhile (· != '=')
  let value := (piece.dropWhile (· != '=')).drop 1
  (String.ofList (trim key), String.ofList (trim value))

/-- The text that the bracket groups among some parameters hold, with commas between
the groups. -/
def joinedOptions (parameters : List Parameter) : Text :=
  let groups := (parameters.filter (!·.isRequired)).map fun p => p.contents.flatMap Content.chars
  (groups.intersperse [',']).flatten

/-- The options in the bracket groups among some parameters. An option given twice keeps
its first place and takes its last value. -/
def optionMap (parameters : List Parameter) : OptionMap :=
  let joined := joinedOptions parameters
  if isBlank joined then .empty
  else .ofList ((splitOnChar ',' joined).map optionOfPiece)

end TexLint
