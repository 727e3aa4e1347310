import Progression.Condition.Basic
import Progression.Text.Blank
import Progression.Text.WordChar

/-!
The spellings of predicates. Each is a fixed frame around numbers, comparisons and class names;
blanks may stand around the parts, but not before an opening bracket or at the ends.
-/

namespace Progression.Predicate

open Progression.Text

/-- The text without leading blanks. -/
def skipBlanks (s : List Char) : List Char := s.dropWhile isBlank

/-- A number of 32 bits at the beginning of a text, and what follows its digits. -/
def number? (s : List Char) : Option (UInt32 × List Char) :=
  (Number.word32? 10 (s.takeWhile isAsciiDigit)).map (·, s.dropWhile isAsciiDigit)

/-- A number that is all of a text. -/
def lastNumber? (s : List Char) : Option UInt32 :=
  match number? s with
  | some (n, []) => some n
  | _ => none

/-- A comparison at the beginning of a text. -/
def comparison? : List Char → Option (Comparison × List Char)
  | '=' :: '=' :: s => some (.eq, s)
  | '!' :: '=' :: s => some (.ne, s)
  | '<' :: '=' :: s => some (.le, s)
  | '>' :: '=' :: s => some (.ge, s)
  | '<' :: s => some (.lt, s)
  | '>' :: s => some (.gt, s)
  | _ => none

/-- A comparison and a number, which must be all that is left. -/
def compared? (s : List Char) : Option (Comparison × UInt32) := do
  let (op, s) ← comparison? (skipBlanks s)
  let n ← lastNumber? (skipBlanks s)
  return (op, n)

/-- A class after its mark or without one, and what follows its name. -/
def job? (s : List Char) : Option (Job × List Char) := do
  let s := (after? Job.mark s).getD s
  let job ← Job.ofName? (lower (s.takeWhile isAsciiWordChar))
  return (job, s.dropWhile isAsciiWordChar)

/-- `name(n)`. -/
def unary? (name : String) (s : List Char) : Option UInt32 := do
  let s ← after? (name.toList ++ ['(']) s
  let (n, s) ← number? (skipBlanks s)
  match skipBlanks s with
  | [')'] => some n
  | _ => none

/-- `name(n, k)`. -/
def binary? (name : String) (s : List Char) : Option (UInt32 × UInt32) := do
  let s ← after? (name.toList ++ ['(']) s
  let (n, s) ← number? (skipBlanks s)
  match skipBlanks s with
  | ',' :: s =>
    let (k, s) ← number? (skipBlanks s)
    match skipBlanks s with
    | [')'] => some (n, k)
    | _ => none
  | _ => none

/-- `GetQuestStep(n) < k`. -/
def questStep? (s : List Char) : Option Predicate := do
  let s ← after? "GetQuestStep(".toList s
  let (n, s) ← number? (skipBlanks s)
  match skipBlanks s with
  | ')' :: s =>
    let (op, k) ← compared? s
    return .questStep n op k
  | _ => none

/-- `Levels[Miner] < k`. -/
def level? (s : List Char) : Option Predicate := do
  let s ← after? "Levels[".toList s
  let (job, s) ← job? (skipBlanks s)
  match skipBlanks s with
  | ']' :: s =>
    let (op, k) ← compared? s
    return .level job op k
  | _ => none

/-- `CurrentClassLevel < k`. -/
def activeLevel? (s : List Char) : Option Predicate := do
  let s ← after? "CurrentClassLevel".toList s
  let (op, k) ← compared? s
  return .activeLevel op k

/-- `ClassName == Miner` and `ClassName != Miner`. -/
def activeJob? (s : List Char) : Option Predicate := do
  let s ← after? "ClassName".toList s
  let (op, s) ← comparison? (skipBlanks s)
  let (job, s) ← job? (skipBlanks s)
  match op, s with
  | .eq, [] => some (.activeJob job false)
  | .ne, [] => some (.activeJob job true)
  | _, _ => none

def read? (s : List Char) : Option Predicate :=
  (unary? "IsQuestCompleted" s).map isQuestCompleted
    <|> (unary? "HasQuest" s).map hasQuest
    <|> (unary? "HasItem" s).map hasItem
    <|> (unary? "IsQuestAcceptQualified" s).map isQuestAcceptQualified
    <|> (binary? "HqHasAtLeast" s).map (fun (n, k) => hqHasAtLeast n k)
    <|> (binary? "NqHasAtLeast" s).map (fun (n, k) => nqHasAtLeast n k)
    <|> questStep? s
    <|> level? s
    <|> activeLevel? s
    <|> activeJob? s

end Progression.Predicate
