import Progression.Job
import Progression.Number.Digits

/-!
The configuration, and what is to be said about a questionable one.
-/

namespace Progression

open Progression.Number (text)

/-- How grave a remark is. -/
inductive Severity where
  | warning | error
  deriving DecidableEq, Repr

def Severity.name : Severity → String
  | warning => "warning"
  | error => "error"

/-- A remark about a configuration or about tables. -/
structure Remark where
  severity : Severity
  message : String
  deriving DecidableEq, Repr

/-- How long things take. -/
structure Timing where
  /-- Milliseconds between two looks at the game. -/
  tick : UInt64 := 250
  /-- Seconds an interaction may take. -/
  interactionTimeout : UInt64 := 90
  /-- Milliseconds for trailing windows to settle. -/
  settleDelay : UInt64 := 2000
  /-- Milliseconds of rest before and after a change of class. -/
  switchDelay : UInt64 := 3000
  /-- Seconds a change of class may take. -/
  switchTimeout : UInt64 := 10
  deriving DecidableEq, Repr, Inhabited

/-- Bounds on programs. -/
structure Limits where
  /-- How often the body of a loop may run. -/
  iterations : UInt32 := 10000
  includeDepth : UInt64 := 16
  deriving DecidableEq, Repr, Inhabited

/-- What leveling is for. -/
structure Goals where
  gatherers : UInt32 := 20
  crafters : UInt32 := 20
  cap : UInt32 := 100
  skipped : List Job := []
  deriving DecidableEq, Repr, Inhabited

/-- Where the order runner is, and how it is asked. -/
structure RunnerSettings where
  baseUrl : String := "http://127.0.0.1:5050"
  /-- Milliseconds between two looks at the runner. -/
  pollInterval : UInt64 := 2000
  /-- Seconds a request may take. -/
  requestTimeout : UInt64 := 5
  deriving DecidableEq, Repr, Inhabited

/-- The configuration. -/
structure Config where
  version : UInt32 := 1
  timing : Timing := {}
  limits : Limits := {}
  goals : Goals := {}
  runner : RunnerSettings := {}
  deriving DecidableEq, Repr, Inhabited

namespace Goals

variable (g : Goals)

def isSkipped (j : Job) : Bool := g.skipped.contains j

def target (j : Job) : UInt32 := if j.isGatherer then g.gatherers else g.crafters

end Goals

/-- The longest timeout that is not remarked on, in seconds: a day. -/
def longestTimeout : UInt64 := 86400

namespace Timing

variable (t : Timing)

/-- What is to be said about a timeout that is so long. -/
def longRemark (name : String) (secs : UInt64) : List Remark :=
  if longestTimeout < secs then
    [⟨.warning, "timing." ++ name ++ "=" ++ text secs.toNat ++ " is over "
      ++ text longestTimeout.toNat ++ "s; a stuck wait would never give up"⟩]
  else []

/-- What is to be said about the timing. -/
def remarks : List Remark :=
  (if t.tick = 0 then
    [⟨.error, "timing.tick_interval_ms is 0; state machines would spin without yielding"⟩] else [])
  ++ (if t.interactionTimeout < 10 then
    [⟨.warning, "timing.interaction_timeout_secs=" ++ text t.interactionTimeout.toNat
      ++ " is shorter than most dialog chains"⟩] else [])
  ++ longRemark "interaction_timeout_secs" t.interactionTimeout
  ++ longRemark "class_switch_timeout_secs" t.switchTimeout
  ++ (if t.switchTimeout = 0 then
    [⟨.error, "timing.class_switch_timeout_secs is 0; class switches can never be confirmed"⟩]
    else [])

end Timing

/-- What is to be said about the limits. -/
def Limits.remarks (l : Limits) : List Remark :=
  (if l.iterations = 0 then
    [⟨.error, "interpreter.while_iteration_limit is 0; every While step would be skipped"⟩] else [])
  ++ (if l.includeDepth = 0 then
    [⟨.warning, "interpreter.max_include_depth is 0; LoadProfile steps will always fail"⟩] else [])

namespace Goals

variable (g : Goals)

/-- What is to be said about a target. -/
def targetRemarks (name : String) (level : UInt32) : List Remark :=
  if level = 0 then
    [⟨.warning, "progression." ++ name ++ " is 0; the leveling phase will do nothing"⟩]
  else if g.cap < level then
    [⟨.warning, "progression." ++ name ++ "=" ++ text level.toNat ++ " exceeds level_cap="
      ++ text g.cap.toNat⟩]
  else []

/-- What is to be said about the goals. -/
def remarks : List Remark :=
  g.targetRemarks "gatherer_target_level" g.gatherers
    ++ g.targetRemarks "crafter_target_level" g.crafters

end Goals

/-- What is to be said about the settings of the order runner. -/
def RunnerSettings.remarks (r : RunnerSettings) : List Remark :=
  (if r.baseUrl.startsWith "http://" || r.baseUrl.startsWith "https://" then []
    else [⟨.error, "crafting.base_url '" ++ r.baseUrl ++ "' is not an http(s) URL"⟩])
  ++ (if r.pollInterval = 0 then
    [⟨.warning,
      "crafting.poll_interval_ms is 0; the order runner will be polled in a busy loop"⟩] else [])

/-- What is to be said about a configuration. -/
def Config.remarks (c : Config) : List Remark :=
  c.timing.remarks ++ c.limits.remarks ++ c.goals.remarks ++ c.runner.remarks

end Progression
