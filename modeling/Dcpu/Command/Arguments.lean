import Dcpu.Command
import Dcpu.Numeral

set_option autoImplicit false

namespace Dcpu

namespace Command

inductive Request
  | assemble (flags : Flags) (paths : List Text)
  | run (flags : Flags) (path : Text)
deriving DecidableEq, Repr

inductive ArgumentError
  | unknownFlag (argument : Text)
  | missingValue (argument : Text)
  | badValue (name value : Text)
  | pathCount (count : Nat)
deriving DecidableEq, Repr

namespace ArgumentError

def message : ArgumentError → Text
  | .unknownFlag argument => "unknown flag: " ++ argument
  | .missingValue argument => "flag needs an argument: " ++ argument
  | .badValue name value => "invalid argument \"" ++ value ++ "\" for \"--" ++ name ++ "\" flag"
  | .pathCount count => "accepts 1 arg(s), received " ++ Text.decimal count

end ArgumentError

inductive FlagEffect
  | text (set : Flags → Text → Flags)
  | number (set : Flags → Nat → Flags)
  | switch (set : Flags → Bool → Flags)

structure FlagRule where
  name : Text
  letter? : Option UInt8
  effect : FlagEffect

def flagRules : List FlagRule :=
  [⟨"target", some 0x74, .text fun f v => { f with target := v }⟩,
    ⟨"format", some 0x66, .text fun f v => { f with format := v }⟩,
    ⟨"symbols", some 0x73, .switch fun f v => { f with symbols := v }⟩,
    ⟨"list-symbols", none, .switch fun f v => { f with listSymbols := v }⟩,
    ⟨"std", none, .switch fun f v => { f with std := v }⟩,
    ⟨"config", none, .text fun f v => { f with config := v }⟩,
    ⟨"layout", none, .text fun f v => { f with layout := v }⟩,
    ⟨"big-endian", none, .switch fun f v => { f with bigEndian := v }⟩,
    ⟨"steps", some 0x6e, .number fun f v => { f with steps := v }⟩,
    ⟨"image", none, .switch fun f v => { f with image := v }⟩,
    ⟨"trace", none, .switch fun f v => { f with trace := v }⟩]

def FlagRule.apply (rule : FlagRule) (flags : Flags) (value : Text) :
    Except ArgumentError Flags :=
  match rule.effect with
  | .text set => .ok (set flags value)
  | .number set =>
      match Numeral.decode ⟨false, false⟩ value with
      | .ok n => .ok (set flags n)
      | .error _ => .error (.badValue rule.name value)
  | .switch set =>
      if value = "true" then .ok (set flags true)
      else if value = "false" then .ok (set flags false)
      else .error (.badValue rule.name value)

def writtenFlag (argument : Text) : Option FlagRule × Option Text :=
  match argument with
  | 0x2d :: 0x2d :: rest =>
      let name := rest.takeWhile (· != 0x3d)
      let value := (rest.dropWhile (· != 0x3d)).tail?
      (flagRules.find? (·.name == name), value)
  | 0x2d :: letter :: rest =>
      (flagRules.find? (·.letter? == some letter), if rest = [] then none else some rest)
  | _ => (none, none)

def isFlag : Text → Bool
  | 0x2d :: _ :: _ => true
  | _ => false

def FlagRule.switchOn? (rule : FlagRule) (flags : Flags) : Option Flags :=
  match rule.effect with
  | .switch set => some (set flags true)
  | _ => none

def flagsAndPaths (flags : Flags) (paths : List Text) (waiting : Option (FlagRule × Text)) :
    List Text → Except ArgumentError (Flags × List Text)
  | [] =>
      match waiting with
      | some (_, argument) => .error (.missingValue argument)
      | none => .ok (flags, paths.reverse)
  | argument :: rest =>
      match waiting with
      | some (rule, _) => do flagsAndPaths (← rule.apply flags argument) paths none rest
      | none =>
          if argument = "--" then .ok (flags, paths.reverse ++ rest)
          else if !isFlag argument then flagsAndPaths flags (argument :: paths) none rest
          else
            match writtenFlag argument with
            | (none, _) => .error (.unknownFlag argument)
            | (some rule, some value) => do
                flagsAndPaths (← rule.apply flags value) paths none rest
            | (some rule, none) =>
                match rule.switchOn? flags with
                | some flags => flagsAndPaths flags paths none rest
                -- A flag that is no switch waits for the next argument.
                | none => flagsAndPaths flags paths (some (rule, argument)) rest

def Request.ofArguments (arguments : List Text) : Except ArgumentError Request := do
  match ← flagsAndPaths {} [] none arguments with
  | (flags, name :: paths) =>
      if name = "run" then
        match paths with
        | [path] => return .run flags path
        | _ => throw (.pathCount paths.length)
      else return .assemble flags (name :: paths)
  | (flags, []) => return .assemble flags []

end Command

end Dcpu
