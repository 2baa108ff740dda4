import ClassCollapse.Command.Init
import ClassCollapse.Command.Run
import ClassCollapse.Command.Status

/-!
# Carrying commands out
-/

namespace ClassCollapse.Command

def perform (env : Environment) (args : Arguments) : CommandM Unit :=
  match args.task with
  | .init directory => init args.quiet directory
  | .run overrides dryRun format => run env args overrides dryRun format
  | .status format => status args format

/-- Carries a command out on a disk: how it ended, and the session that it left. -/
def execute (env : Environment) (args : Arguments) (d : Disk) : Except Failure Unit × Session :=
  (perform env args).run { disk := d }

end ClassCollapse.Command
