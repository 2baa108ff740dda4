import ClassCollapse.Config.Basic
import ClassCollapse.Disk.Path

/-!
# Where a project has its files

Paths of a configuration that are relative start from the project directory.
-/

namespace ClassCollapse

structure ProjectPaths where
  projectDirectory : Path
  scanRoot : Path
  cacheFile : Path
  utilitiesFile : Path
deriving DecidableEq

def ProjectConfig.paths (c : ProjectConfig) (directory : Path) : ProjectPaths where
  projectDirectory := directory
  scanRoot := directory.join ⟨c.scan.root⟩
  cacheFile := directory.join ⟨c.cache.path⟩
  utilitiesFile := directory.join ⟨c.css.utilities⟩

/-- What the command line changes in a configuration. -/
structure ConfigOverrides where
  orderMatters : Bool := false
  noNaming : Bool := false
  maxInvocations : Option Nat := none
deriving DecidableEq

def ProjectConfig.override (c : ProjectConfig) (o : ConfigOverrides) : ProjectConfig where
  scan := { c.scan with orderMatters := c.scan.orderMatters || o.orderMatters }
  naming := { c.naming with
    useStrategy := c.naming.useStrategy && !o.noNaming
    maxInvocations := o.maxInvocations.getD c.naming.maxInvocations }
  css := c.css
  cache := c.cache

end ClassCollapse
