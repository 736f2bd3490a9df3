/-
What the command line says about itself.
-/
import DataflowSynth.Text.Lines

namespace DataflowSynth.CommandLine

def usage : String :=
  "Usage: forge [-o <output>] [-p <pass...>] [-d <disable-pass...>] [-x <extra-opt...>] " ++
  "[-i <insert...>] [--clock-domain <clock-domain>] [--emit <emit>] [--dump-ir] [--list-passes] " ++
  "[--log-level <log-level>] [--] [<file>]"

def help : String := unlines [
  usage,
  "",
  "Forge: lowers a dataflow actor into a hardware design.",
  "",
  "Positional Arguments:",
  "  file              input actor, as JSON",
  "",
  "Options:",
  "  -o, --output      output file, default is stdout",
  "  -p, --pass        execute this pass or alias. Can be given multiple times;",
  "                    defaults to `all'",
  "  -d, --disable-pass",
  "                    disable pass during execution",
  "  -x, --extra-opt   extra options passed to the passes, as `pass:opt` or",
  "                    `pass:opt=value`",
  "  -i, --insert      run pass `b' right after pass `a', given as `a:b'",
  "  --clock-domain    clock and reset of every task, `clk' or `clk:rst'",
  "  --emit            output format: text or json",
  "  --dump-ir         print the design after every pass",
  "  --list-passes     list all the registered passes and aliases",
  "  --log-level       logging level: off, error, warn, info, debug or trace",
  "  -h, --help        display usage information"]

end DataflowSynth.CommandLine
