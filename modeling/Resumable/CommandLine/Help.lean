import Resumable.CommandLine.Request

/-!
# Help

* a page says what a command does, how it is used, and what its arguments and options are;
* descriptions stand in one column, two blanks right of the longest entry.
-/

namespace Resumable

namespace CommandLine

/-- The name of the program. -/
def programName : String := "genlower"

/-- The version line. -/
def versionLine : String := programName ++ " 0.1.0"

/-- An entry of a list: what is described, and the description. -/
structure HelpEntry where
  item : String
  description : String

/-- Entries under a head, with all descriptions in one column. -/
def helpSection (head : String) (entries : List HelpEntry) : String :=
  let width := (entries.map fun e => e.item.length).foldl max 0
  head ++ ":\n" ++ String.join (entries.map fun e =>
    "  " ++ e.item.pushn ' ' (width - e.item.length) ++ "  " ++ e.description ++ "\n")

/-- A page of help. -/
structure HelpPage where
  about : String
  usage : String
  sections : List (String × List HelpEntry)

/-- The text of a page. -/
def HelpPage.text (p : HelpPage) : String :=
  p.about ++ "\n\nUsage: " ++ programName ++ " " ++ p.usage ++ "\n\n"
    ++ "\n".intercalate (p.sections.map fun (head, entries) => helpSection head entries)

/-- The entry of the flag for help. -/
def helpFlag : HelpEntry := ⟨"-h, --help", "Print help"⟩

/-- What a topic is about. -/
def Topic.about : Topic → String
  | program => "Generator lowering"
  | lower => "Lower every procedure and print the generated classes"
  | check => "Lower every procedure and report diagnostics only"
  | run => "Lower one procedure and print the values it produces"
  | help => "Print this message or the help of the given subcommand(s)"

/-- The entry of an option. -/
def Opt.helpEntry : Opt → HelpEntry
  | format => ⟨"    --format <FORMAT>", "[default: java] [possible values: java, json]"⟩
  | config => ⟨"    --config <CONFIG>", ""⟩
  | output => ⟨"-o, --output <OUTPUT>", "Write to this file instead of stdout"⟩
  | procedure => ⟨"-p, --procedure <PROCEDURE>", "Procedure to instantiate"⟩
  | arg => ⟨"-a, --arg <VALUE>", "Constructor argument; repeat for each parameter"⟩
  | limit => ⟨"    --limit <LIMIT>", "Stop after this many values"⟩

/-- The page of a topic. -/
def Topic.page (t : Topic) : HelpPage :=
  match t with
  | program => ⟨t.about, "<COMMAND>",
      [("Commands", [⟨"lower", lower.about⟩, ⟨"check", check.about⟩, ⟨"run", run.about⟩,
        ⟨"help", help.about⟩]),
      ("Options", [helpFlag, ⟨"-V, --version", "Print version"⟩])]⟩
  | lower => ⟨t.about, "lower [OPTIONS] <FILE>",
      [("Arguments", [⟨"<FILE>", "Source file, or a `.json` compilation unit"⟩]),
      ("Options", [Opt.format.helpEntry,
        ⟨Opt.config.helpEntry.item, "Lowering configuration (JSON)"⟩, Opt.output.helpEntry,
        helpFlag])]⟩
  | check => ⟨t.about, "check [OPTIONS] <FILE>",
      [("Arguments", [⟨"<FILE>", ""⟩]), ("Options", [Opt.config.helpEntry, helpFlag])]⟩
  | run => ⟨t.about, "run [OPTIONS] --procedure <PROCEDURE> <FILE>",
      [("Arguments", [⟨"<FILE>", ""⟩]),
      ("Options", (Opt.ofTopic t).map Opt.helpEntry ++ [helpFlag])]⟩
  | help => ⟨t.about, "help [COMMAND]...",
      [("Arguments", [⟨"[COMMAND]...", "Print help for the subcommand(s)"⟩])]⟩

end CommandLine

end Resumable
