/-
Settings of pass options.

A setting is `pass:option` or `pass:option=value`.  Settings for other passes, and texts without a
colon, are passed over; unknown options and values that cannot be read are passed over with a
warning.  Of several settings of an option the last one holds.
-/
import DataflowSynth.Pass.Basic

namespace DataflowSynth.Pass

/-- The option and the value, if any, that a setting names, provided that it is for pass `p`. -/
def settingFor? (p : Pass) (setting : String) : Option (String × Option String) :=
  match cut ':' setting with
  | none => none
  | some (target, rest) =>
    if target ≠ p.name then none
    else match cut '=' rest with
      | some (key, raw) => some (key, some raw)
      | none => some (rest, none)

/-- The values of the options of a pass. -/
abbrev Values := OrderedMap String Value

def defaults (p : Pass) : Values := .ofList (p.declarations.map fun o => (o.name, o.default))

/-- Takes one setting into account.  Beside the values stand the texts of the settings that held. -/
def applySetting {σ : Type} (p : Pass) (acc : Values × List String)
    (setting : String × Option String) : Build σ (Values × List String) := do
  let (key, raw) := setting
  match p.declarations.find? (·.name = key) with
  | none =>
    Build.log .warn .options ("Ignoring unknown option for pass `" ++ p.name ++ "`: " ++ key)
    return acc
  | some o =>
    match o.value? raw with
    | some v => return (acc.1.put key v, acc.2 ++ [key ++ "->" ++ v.text])
    | none =>
      Build.log .warn .options ("Ignoring invalid value for option `" ++ p.name ++ ":" ++ key ++
        "`: " ++ raw.getD "")
      return acc

/-- The values of the options of a pass under some settings. -/
def values {σ : Type} (p : Pass) (settings : List String) : Build σ Values := do
  let (values, applied) ← (settings.filterMap p.settingFor?).foldlM p.applySetting (p.defaults, [])
  if !applied.isEmpty then
    Build.log .debug .options ("Extra options for " ++ p.name ++ ": " ++ ", ".intercalate applied)
  return values

/-- The value of an option that takes flags. -/
def flagValue {σ : Type} (o : Declaration) (values : Values) : Build σ Bool :=
  match (values.find? o.name).getD o.default with
  | .flag on => pure on
  | v => Build.abort (.notAFlag v.text)

/-- The value of an option that takes streams, unless what is sent there is lost. -/
def streamValue {σ : Type} (o : Declaration) (values : Values) :
    Build σ (Option Destination) :=
  match (values.find? o.name).getD o.default with
  | .stream target => pure target.unlessNull
  | v => Build.abort (.notAStream v.text)

end DataflowSynth.Pass
