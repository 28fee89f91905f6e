import Equational.Json.Decode
import Equational.Settings

/-!
# Settings documents

Settings are given by a document in which every part may be missing. The depths, the
heuristic and the stopping strategy may also be `null`.
-/

namespace Equational

inductive SettingsError where
  | document
  | fault (fault : SettingsFault)
  deriving DecidableEq, Repr

namespace Settings

open Json

def seed? (value : Value) : Option SeedChoice :=
  match value with
  | .string _ => value.text?.map .word
  | _ => value.natural?.map fun n => .value (UInt64.ofNat n)

def depths? (value : Value) : Option Depths := do
  match ← value.record? ["max_depth", "starting_depth"] with
  | [max, starting] =>
    pure { max := ← defaulting Value.natural? 10 max
           starting := ← defaulting Value.natural? 3 starting }
  | _ => none

def heuristic? (value : Value) : Option EditDistance := do
  match ← value.choice? with
  | ("edit_distance", value) =>
    match ← value.record? ["symbol_mismatch_cost", "p"] with
    | [cost, p] => pure ⟨← required Value.float32? cost, ← required Value.float32? p⟩
    | _ => none
  | _ => none

def stopping? (value : Value) : Option Stopping := do
  match ← value.choice? with
  | ("fixed", value) =>
    match ← value.record? ["n"] with
    | [n] => pure (.fixed (← required Value.natural? n))
    | _ => none
  | ("basic", value) =>
    match ← value.record? ["initial_fill", "lambda", "alpha"] with
    | [fill, lambda, alpha] =>
      pure (.basic (← defaulting Value.natural? 3 fill) (← required Value.float32? lambda)
        (← required Value.float32? alpha))
    | _ => none
  | _ => none

def fields : List String :=
  ["name", "desc", "max_steps", "step_size", "seed", "randomised", "no_repeats", "solver",
    "heuristic", "stopping_strategy"]

def ofValue? (value : Value) : Option Settings := do
  let usual : Settings := {}
  match ← value.record? fields with
  | [name, desc, maxSteps, stepSize, seed, randomised, noRepeats, depths, heuristic, stopping] =>
    pure
      { name := ← defaulting Value.text? usual.name name
        desc := ← defaulting Value.text? usual.desc desc
        maxSteps := ← defaulting Value.natural? usual.maxSteps maxSteps
        stepSize := ← defaulting Value.natural? usual.stepSize stepSize
        seed := ← defaulting seed? usual.seed seed
        randomised := ← defaulting Value.bool? usual.randomised randomised
        noRepeats := ← defaulting Value.bool? usual.noRepeats noRepeats
        depths := ← defaulting (Value.optional? depths?) none depths
        heuristic := ← defaulting (Value.optional? heuristic?) none heuristic
        stopping := ← defaulting (Value.optional? stopping?) none stopping }
  | _ => none

def read (text : String) : Except SettingsError Settings :=
  match (Json.read text).bind ofValue? with
  | none => .error .document
  | some settings =>
    match settings.fault? with
    | none => .ok settings
    | some fault => .error (.fault fault)

end Settings

end Equational
