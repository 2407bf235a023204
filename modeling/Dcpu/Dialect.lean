import Dcpu.Diagnostic
import Dcpu.Numeral

set_option autoImplicit false

namespace Dcpu

structure Dialect where
  signedNumbers : Bool
  underscoreInNumbers : Bool
  binaryLiterals : Bool
  localLabels : Bool
  extendedLabelNames : Bool
  datLengthCounting : Bool
  differenceLiterals : Bool
  -- empty for the default layout
  layoutName : Text
deriving DecidableEq, Repr

structure AssemblyRules where
  localLabels : Bool
  datLengthCounting : Bool
  differenceLiterals : Bool
  signedNumbers : Bool
  layout : LayoutNumber
deriving DecidableEq, Repr

namespace Dialect

def uniform (extensions : Bool) (layoutName : Text) : Dialect where
  signedNumbers := extensions
  underscoreInNumbers := extensions
  binaryLiterals := extensions
  localLabels := extensions
  extendedLabelNames := extensions
  datLengthCounting := extensions
  differenceLiterals := extensions
  layoutName := layoutName

def standard : Dialect := uniform false Layout.default.name

def extended : Dialect := uniform true Layout.default.name

def layout (d : Dialect) : Except AssemblyError Layout :=
  if d.layoutName = [] then .ok Layout.default
  else
    match Layout.ofName? d.layoutName with
    | some layout => .ok layout
    | none => .error (.unknownLayout d.layoutName)

def assemblyRules (d : Dialect) : Except AssemblyError AssemblyRules := do
  let layout ← d.layout
  return {
    localLabels := d.localLabels
    datLengthCounting := d.datLengthCounting
    differenceLiterals := d.differenceLiterals
    signedNumbers := d.signedNumbers
    layout := layout.number }

def numeralRules (d : Dialect) : NumeralRules := ⟨d.binaryLiterals, d.underscoreInNumbers⟩

end Dialect

end Dcpu
