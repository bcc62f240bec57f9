import Preassembler.CommandLine.Arguments

/-! Help texts and the version. -/
namespace Preassembler.CommandLine
open Text (ascii)

/-- Lines of a text, each with its newline. -/
def textLines (l : List String) : Text := l.flatMap fun s => ascii s ++ [0x0A]

/-- The help for a command. -/
def Command.helpText : Command → Text
  | .preprocess => textLines
    ["lc2kpp turns LC2K+ source into a plain LC2K assembly listing.",
      "",
      "It supports #define value and function macros, // and /* */ comments,",
      "backslash line continuations, inline labels and ';' statement separators.",
      "Use - as source or destination for standard input or output.",
      "",
      "Usage:",
      "  lc2kpp <source> <dest> [flags]",
      "  lc2kpp [command]",
      "",
      "Available Commands:",
      "  completion  Generate the autocompletion script for the specified shell",
      "  help        Help about any command",
      "  version     Print version information",
      "",
      "Flags:",
      "      --config string        config file (default: $LC2KPP_CONFIG)",
      "  -D, --define stringArray   predefine a value macro NAME[=VALUE]",
      "  -h, --help                 help for lc2kpp",
      "      --strict               fail on a block comment left open at end of input",
      "  -v, --verbose              debug logging",
      "",
      "Use \"lc2kpp [command] --help\" for more information about a command."]
  | .version => textLines
    ["Print version information",
      "",
      "Usage:",
      "  lc2kpp version [flags]",
      "",
      "Flags:",
      "  -h, --help   help for version"]
  | .help => textLines
    ["Help provides help for any command in the application.",
      "Simply type lc2kpp help [path to command] for full details.",
      "",
      "Usage:",
      "  lc2kpp help [command] [flags]",
      "",
      "Flags:",
      "  -h, --help   help for help"]

/-- The version, built with the given toolchain. -/
def versionText (toolchain : Text) : Text :=
  textLines ["lc2kpp v0.1.0", "  Git Commit: development", "  Build Date: unknown"] ++
    ascii "  Go Version: " ++ toolchain ++ [0x0A]

end Preassembler.CommandLine
