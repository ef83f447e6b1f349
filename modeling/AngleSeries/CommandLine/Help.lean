/-!
# Help texts

What each command prints when it is asked for help.
-/

namespace AngleSeries.CommandLine

def mainHelp : String :=
  "plm – evaluate and sequence the PLM transform

Commands:
  value --config <file> | --pi --lambda --mu --x --hash --block-size --crc [--json]
  run [--config <file>] [--steps 20] [--oracle sampled|analytic] [--format csv|json] [--output <file>]
  config validate <config.json> [--json] [--verbose]
  hex <text>

Run \"plm <command> --help\" to learn more about a command."

def valueHelp : String :=
  "plm value

Compute S = ((pi * y) * (lambda * x)) / (mu * C) once.

Inputs (either a run config or all seven flags):
  --config <file>        Run config JSON supplying the inputs
  --pi <decimal>         pi
  --lambda <decimal>     lambda
  --mu <decimal>         mu (non-zero)
  --x <integer>          x
  --hash <hex>           hash string; y is its hex value
  --block-size <int>     block size
  --crc <int>            CRC value; C = block size + CRC must be positive

Optional:
  --json                 Emit the derived values as JSON
"

def runHelp : String :=
  "plm run

Step the sequencer, encode each S as a rotation angle and record P(1).

Inputs: --config <file>, or the seven inline flags from \"plm value --help\".

Optional:
  --steps <count>        Records to produce (default 20)
  --scale <number>       Angle scale factor (default 1)
  --shots <count>        Shots per oracle call (default 2000)
  --oracle <kind>        sampled or analytic (default sampled)
  --seed <number>        Seed for the sampled oracle (default 1337)
  --format <csv|json>    Output format (default csv)
  --json                 Same as --format json
  --output <path>        Write the output to a file instead of stdout
  --broadcast <port>     Stream records over WebSocket while running
  --interval <ms>        Pause between steps (useful with --broadcast)

Example:
  plm run --config examples/configs/quantum-temporal.json --steps 20 --output series.csv
"

def configHelp : String :=
  "plm config – run config utilities

Usage:
  plm config validate <config.json> [--json] [--verbose]
"

def hexHelp : String :=
  "Usage: plm hex <text>

Print the base-10 value of a hex string (optional 0x prefix)."

end AngleSeries.CommandLine
