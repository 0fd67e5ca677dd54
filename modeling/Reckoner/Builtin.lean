import Reckoner.FunctionTable

/-!
# Built-in functions

Angles are in degrees. Outside their domain the functions give the number that is no number.
-/
namespace Reckoner.Builtin

def pi : Float := Float.ofBits 0x400921FB54442D18

def radians (degrees : Float) : Float := degrees * (pi / 180)

def degrees (radians : Float) : Float := radians * (180 / pi)

def functions : List (String × (Float → Float)) :=
  [("sin", fun x => (radians x).sin),
    ("cos", fun x => (radians x).cos),
    ("tan", fun x => (radians x).tan),
    ("asin", fun x => degrees x.asin),
    ("acos", fun x => degrees x.acos),
    ("atan", fun x => degrees x.atan),
    ("sqrt", Float.sqrt),
    ("ln", Float.log),
    ("log", Float.log10),
    ("exp", Float.exp),
    ("abs", Float.abs),
    ("floor", Float.floor),
    ("ceil", Float.ceil),
    ("round", Float.round)]

def table : FunctionTable := .ofList functions

end Reckoner.Builtin
