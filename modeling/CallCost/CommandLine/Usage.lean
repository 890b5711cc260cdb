import CallCost.Settings.Basic

/-!
The usage and version texts.
-/

namespace CallCost

def usageLines : List String :=
  ["Usage: span-tree [options] <trace-file> <top-level-label>",
   "",
   "Aggregates ┌╴/└╴ span markers into a call-cost tree.",
   "",
   "Options:",
   "  --self              Show self cycles (total minus children) on each line",
   "  --flat              Append per-label totals after the tree",
   "  --json              Print the forest as JSON",
   "  --strict-sections   Ignore nested markers inside skipped top-level sections",
   "  -h, --help          Show this help text",
   "  -v, --version       Show version",
   "",
   "Environment:",
   "  SPAN_TREE_INDENT    Indent width in spaces (0-8, default 2)",
   "  SPAN_TREE_TRACE     Log parse diagnostics to stderr"]

def usageText : String :=
  "\n".intercalate usageLines

/-- The version is that of the package the program was started from. -/
def versionText (env : Environment) : String :=
  "span-tree " ++ (env "npm_package_version").getD "0.0.0"

end CallCost
