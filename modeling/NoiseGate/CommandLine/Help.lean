import NoiseGate.CommandLine.Arguments

/-!
# Help

The texts that are shown on request.
-/

namespace NoiseGate

def versionText : Text := "sieve 0.0.0\n".toList

/-- The help shows the value of the variable that stands in for a setting. -/
def helpText (e : Environment) : Text :=
  "Strip non-LSP output from a language server's stdout\n\n".toList ++
    "Usage: sieve [OPTIONS] [-- <SERVER_ARGS>...]\n\n".toList ++
    "Arguments:\n".toList ++
    "  [SERVER_ARGS]...  Arguments passed to the server, after `--`\n\n".toList ++
    "Options:\n".toList ++
    "      --config <FILE>      Config file [default: ~/.sieve/config.toml] [env: ".toList ++
    Arguments.configVariable ++ "=".toList ++ (e.get? Arguments.configVariable).getD [] ++
    "]\n".toList ++
    "      --server <COMMAND>   Language server executable, overrides [server] path\n".toList ++
    "      --cwd <DIR>          Working directory for the server\n".toList ++
    "      --log-file <FILE>    Write sieve's own log here instead of stderr\n".toList ++
    "      --noise-file <FILE>  Append server stderr and discarded stdout here\n".toList ++
    "  -h, --help               Print help\n".toList ++
    "  -V, --version            Print version\n".toList

def Flag.text (f : Flag) (e : Environment) : Text :=
  match f with
  | .help => helpText e
  | .version => versionText

end NoiseGate
