import Dcpu.Text

set_option autoImplicit false

namespace Dcpu

namespace Path

def slash : UInt8 := 0x2f

def dot : UInt8 := 0x2e

def base (path : Text) : Text :=
  if path = [] then "."
  else
    -- Slashes at the end do not count.
    match (path.reverse.dropWhile (· == slash)).takeWhile (· != slash) with
    | [] => "/"
    | name => name.reverse

def extension (path : Text) : Text :=
  let name := path.reverse.takeWhile (· != slash)
  if name.contains dot then dot :: (name.takeWhile (· != dot)).reverse else []

def replaceExtension (path extension' : Text) : Text :=
  path.dropEnding (extension path) ++ extension'

def elements : Text → List Text
  | [] => [[]]
  | b :: rest =>
      if b = slash then [] :: elements rest
      else
        match elements rest with
        | [] => [[b]]
        | first :: others => (b :: first) :: others

def isAbsolute (path : Text) : Bool := path.head? == some slash

end Path

end Dcpu
