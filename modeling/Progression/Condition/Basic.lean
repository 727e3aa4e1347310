import Progression.Host

/-!
Conditions of steps: predicates on the state of the game, joined by the connectives. A text that
is no known predicate is kept as it stands and counts as true, so that a program can get past
conditions nobody reads.
-/

namespace Progression

/-- A comparison of numbers. -/
inductive Comparison where
  | eq | ne | lt | le | gt | ge
  deriving DecidableEq, Repr

namespace Comparison

def symbol : Comparison → String
  | eq => "==" | ne => "!=" | lt => "<" | le => "<=" | gt => ">" | ge => ">="

def holds : Comparison → UInt32 → UInt32 → Bool
  | eq, a, b => a == b
  | ne, a, b => a != b
  | lt, a, b => a < b
  | le, a, b => a ≤ b
  | gt, a, b => b < a
  | ge, a, b => b ≤ a

end Comparison

/-- A single fact about the game. -/
inductive Predicate where
  | isQuestCompleted (id : ObjectiveId)
  | hasQuest (id : ObjectiveId)
  | hasItem (id : ItemId)
  /-- Neither completed nor held. -/
  | isQuestAcceptQualified (id : ObjectiveId)
  | hqHasAtLeast (id : ItemId) (amount : UInt32)
  | nqHasAtLeast (id : ItemId) (amount : UInt32)
  | questStep (id : ObjectiveId) (op : Comparison) (value : UInt32)
  | level (job : Job) (op : Comparison) (value : UInt32)
  /-- The level of the active class, 0 without one. -/
  | activeLevel (op : Comparison) (value : UInt32)
  /-- The active class is, or is not, the given one. -/
  | activeJob (job : Job) (negated : Bool)
  deriving DecidableEq, Repr

/-- A condition. -/
inductive Condition where
  | any (parts : List Condition)
  | all (parts : List Condition)
  | not (part : Condition)
  | literal (value : Bool)
  | atom (predicate : Predicate)
  | unknown (text : String)
  deriving Repr, Inhabited

namespace Condition

mutual

/-- The texts in a condition that are no predicates, from left to right. -/
def unknowns : Condition → List String
  | any parts => unknownsOf parts
  | all parts => unknownsOf parts
  | not part => unknowns part
  | literal _ => []
  | atom _ => []
  | unknown text => [text]

def unknownsOf : List Condition → List String
  | [] => []
  | c :: cs => unknowns c ++ unknownsOf cs

end

end Condition

variable {m : Type → Type} [Monad m] (ask : Oracle m)

def Predicate.holds : Predicate → m Bool
  | isQuestCompleted id => ask (.completed id)
  | hasQuest id => ask (.held id)
  | hasItem id => do
    let n : UInt32 ← ask (.count id .any)
    return 0 < n
  | isQuestAcceptQualified id => do
    let done : Bool ← ask (.completed id)
    if done then return false
    let held : Bool ← ask (.held id)
    return !held
  | hqHasAtLeast id amount => do
    let n : UInt32 ← ask (.count id .high)
    return amount ≤ n
  | nqHasAtLeast id amount => do
    let n : UInt32 ← ask (.count id .normal)
    return amount ≤ n
  | questStep id op value => do
    let n : UInt32 ← ask (.stage id)
    return op.holds n value
  | level job op value => do
    let n : UInt32 ← ask (.level job)
    return op.holds n value
  | activeLevel op value => do
    let active : Option Job ← ask .activeJob
    match active with
    | some job =>
      let n : UInt32 ← ask (.level job)
      return op.holds n value
    | none => return op.holds 0 value
  | activeJob job negated => do
    let active : Option Job ← ask .activeJob
    return (active == some job) != negated

namespace Condition

mutual

/-- Whether a condition holds. Parts are asked from the left, and no further than needed. -/
def eval : Condition → m Bool
  | any parts => evalAny parts
  | all parts => evalAll parts
  | not part => do
    let b ← eval part
    return !b
  | literal value => return value
  | atom predicate => predicate.holds ask
  | unknown _ => return true

def evalAny : List Condition → m Bool
  | [] => return false
  | c :: cs => do
    let b ← eval c
    if b then return true else evalAny cs

def evalAll : List Condition → m Bool
  | [] => return true
  | c :: cs => do
    let b ← eval c
    if b then evalAll cs else return false

end

end Condition
end Progression
