/-!
# Help on the command line
-/

namespace SlotPool.Cli

/-- The lines that explain the commands and options. -/
def helpLines : List String := [
  "Stress-test and inspect pools of slots that grow by blocks",
  "",
  "Usage: splice [OPTIONS] <COMMAND>",
  "",
  "Commands:",
  "  stress  Take and give back slots of one pool from many threads",
  "  sizing  Show how many slots each growth policy provides for a bulk request",
  "  dump    Put scattered values in order and show the first of them",
  "  help    Show this text",
  "",
  "Options:",
  "  -c, --config <CONFIG>  Path of a pool configuration (overrides --block-size)",
  "  -v, --verbose...       More words beside the report",
  "  -h, --help             Show this text",
  "  -V, --version          Show the version",
  "",
  "Options of stress:",
  "  -t, --threads <N>      Threads [default: 4]",
  "  -i, --iterations <N>   Rounds of each thread [default: 10000]",
  "  -b, --block-size <N>   Slots in a block [default: 4096]",
  "      --batch <N>        Slots taken at once in every eighth round [default: 0]",
  "",
  "Options of sizing:",
  "  -b, --block-size <N>   Slots in a block [default: 20]",
  "      --count <N>        Slots asked for at once [default: 41]",
  "",
  "Options of dump:",
  "      --count <N>        Values [default: 32]",
  "  -m, --max <N>          Values shown at most [default: 16]"]

def versionLine : String := "splice 0.1.0"

end SlotPool.Cli
