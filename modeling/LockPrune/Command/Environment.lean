/-!
# The environment

Variables that the command looks at besides its words: one for the filter of the log, and two
that say whether texts are styled even where no terminal shows them.

## Main definitions

* `Environment` — variables with their values.
* `Environment.filter?` — the filter for the log.
* `Environment.wantsStyles` — texts keep their styles.
-/

namespace LockPrune.Command

/-- Variables with their values. -/
structure Environment where
  settings : List (String × String)
  deriving DecidableEq, Repr

namespace Environment

/-- The variable that holds a filter for the log. -/
def filterName : String := "BERRY_PRUNE_LOG"

/-- The variable that asks for styles. -/
def stylesName : String := "CLICOLOR_FORCE"

/-- The variable that forbids styles. -/
def noStylesName : String := "NO_COLOR"

/-- The names of the variables that are looked at. -/
def names : List String :=
  [filterName, stylesName, noStylesName]

/-- The value of a variable. -/
def value? (env : Environment) (name : String) : Option String :=
  env.settings.lookup name

/-- The filter for the log, if there is one. -/
def filter? (env : Environment) : Option String :=
  env.value? filterName

/-- The variable has a value that is not empty. -/
def isSet (env : Environment) (name : String) : Bool :=
  (env.value? name).any fun value => !value.isEmpty

/-- Texts keep their styles: that was asked for, and not forbidden. -/
def wantsStyles (env : Environment) : Bool :=
  env.isSet stylesName && !env.isSet noStylesName

end Environment

end LockPrune.Command
