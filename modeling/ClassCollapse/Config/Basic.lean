import ClassCollapse.Text.Search

/-!
# Configuration

The settings of a project with their defaults: which files are scanned, how names are made, where
the utility table and the change cache are.
-/

namespace ClassCollapse

def configFileName : String := "classfold.toml"

structure ScanConfig where
  root : String := "src"
  fileTypes : List String := [".astro", ".tsx", ".jsx", ".vue", ".html"]
  excludedDirectories : List String := ["node_modules", ".git", "dist"]
  orderMatters : Bool := false
deriving DecidableEq

structure NamingConfig where
  namePrefix : String := "twk-"
  useStrategy : Bool := false
  endpoint : String := "http://localhost:8787"
  maxInvocations : Nat := 999
  timeoutMs : Nat := 10000
deriving DecidableEq

structure CssConfig where
  utilities : String := "utilities.json"
deriving DecidableEq

structure CacheConfig where
  path : String := "classfold.lock"
deriving DecidableEq

structure ProjectConfig where
  scan : ScanConfig := {}
  naming : NamingConfig := {}
  css : CssConfig := {}
  cache : CacheConfig := {}
deriving DecidableEq

def ScanConfig.isScanned (scan : ScanConfig) (fileName : String) : Bool :=
  scan.fileTypes.any fun ending => Text.endsWith fileName ending

def ScanConfig.isExcluded (scan : ScanConfig) (directoryName : String) : Bool :=
  directoryName ∈ scan.excludedDirectories

end ClassCollapse
