import Dcpu.Program
import Dcpu.Source

set_option autoImplicit false

namespace Dcpu

namespace Assembly

def ofSource (dialect : Dialect) (text : Text) : Except (List Failure) Assembly :=
  let source := Source.read dialect text
  if !source.errors.isEmpty then .error (source.errors.map .rejected)
  else
    match dialect.assemblyRules with
    | .error e => .error [.rejected e]
    | .ok rules => (ofStatements rules source.statements).mapError ([·])

end Assembly

end Dcpu
