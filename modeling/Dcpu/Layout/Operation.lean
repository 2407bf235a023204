import Dcpu.Layout

set_option autoImplicit false

namespace Dcpu

inductive BasicOp
  | set | add | sub | mul | mli | div | dvi | mod | mdi | and | bor | xor | shr | asr | shl
  | ifb | ifc | ife | ifn | ifg | ifa | ifl | ifu | adx | sbx | sti | std
deriving DecidableEq, Repr

inductive ExtendedOp
  | jsr | int | iag | ias | rfi | iaq | hwn | hwq | hwi
deriving DecidableEq, Repr

namespace BasicOp

def mnemonic : BasicOp → Text
  | .set => "set"
  | .add => "add"
  | .sub => "sub"
  | .mul => "mul"
  | .mli => "mli"
  | .div => "div"
  | .dvi => "dvi"
  | .mod => "mod"
  | .mdi => "mdi"
  | .and => "and"
  | .bor => "bor"
  | .xor => "xor"
  | .shr => "shr"
  | .asr => "asr"
  | .shl => "shl"
  | .ifb => "ifb"
  | .ifc => "ifc"
  | .ife => "ife"
  | .ifn => "ifn"
  | .ifg => "ifg"
  | .ifa => "ifa"
  | .ifl => "ifl"
  | .ifu => "ifu"
  | .adx => "adx"
  | .sbx => "sbx"
  | .sti => "sti"
  | .std => "std"

def isConditional : BasicOp → Bool
  | .ifb | .ifc | .ife | .ifn | .ifg | .ifa | .ifl | .ifu => true
  | _ => false

end BasicOp

namespace ExtendedOp

def mnemonic : ExtendedOp → Text
  | .jsr => "jsr"
  | .int => "int"
  | .iag => "iag"
  | .ias => "ias"
  | .rfi => "rfi"
  | .iaq => "iaq"
  | .hwn => "hwn"
  | .hwq => "hwq"
  | .hwi => "hwi"

end ExtendedOp

namespace Layout

def basicTable : Layout → List (BasicOp × Word)
  | .v1 =>
      [(.set, 0x1), (.add, 0x2), (.sub, 0x3), (.mul, 0x4), (.div, 0x5), (.mod, 0x6),
        (.shl, 0x7), (.shr, 0x8), (.and, 0x9), (.bor, 0xa), (.xor, 0xb), (.ife, 0xc),
        (.ifn, 0xd), (.ifg, 0xe), (.ifb, 0xf)]
  | .v2 =>
      [(.set, 0x01), (.add, 0x02), (.sub, 0x03), (.mul, 0x04), (.mli, 0x05), (.div, 0x06),
        (.dvi, 0x07), (.mod, 0x08), (.mdi, 0x09), (.and, 0x0a), (.bor, 0x0b), (.xor, 0x0c),
        (.shr, 0x0d), (.asr, 0x0e), (.shl, 0x0f), (.ifb, 0x10), (.ifc, 0x11), (.ife, 0x12),
        (.ifn, 0x13), (.ifg, 0x14), (.ifa, 0x15), (.ifl, 0x16), (.ifu, 0x17), (.adx, 0x1a),
        (.sbx, 0x1b), (.sti, 0x1e), (.std, 0x1f)]

def extendedTable : Layout → List (ExtendedOp × Word)
  | .v1 => [(.jsr, 0x01)]
  | .v2 =>
      [(.jsr, 0x01), (.int, 0x08), (.iag, 0x09), (.ias, 0x0a), (.rfi, 0x0b), (.iaq, 0x0c),
        (.hwn, 0x10), (.hwq, 0x11), (.hwi, 0x12)]

def basicEntry? (l : Layout) (mnemonic : Text) : Option (BasicOp × Word) :=
  let lowered := mnemonic.lower
  l.basicTable.find? fun entry => entry.1.mnemonic == lowered

def extendedEntry? (l : Layout) (mnemonic : Text) : Option (ExtendedOp × Word) :=
  let lowered := mnemonic.lower
  l.extendedTable.find? fun entry => entry.1.mnemonic == lowered

def basicOpcode? (l : Layout) (mnemonic : Text) : Option Word :=
  (l.basicEntry? mnemonic).map (·.2)

def extendedOpcode? (l : Layout) (mnemonic : Text) : Option Word :=
  (l.extendedEntry? mnemonic).map (·.2)

def basicOp? (l : Layout) (opcode : Word) : Option BasicOp :=
  (l.basicTable.find? (·.2 == opcode)).map (·.1)

def extendedOp? (l : Layout) (number : Word) : Option ExtendedOp :=
  (l.extendedTable.find? (·.2 == number)).map (·.1)

def extendedOpcode : Word := 0

end Layout

end Dcpu
