import ScrapeConfig.Pattern.Basic

/-!
# Lexical rules

A rule says what the lexer does with a frame that the rule's pattern won. Rules are kept in order:
the pattern of a rule has the index of the rule.
-/

namespace ScrapeConfig

/-- What is done with a frame. -/
inductive Action where
  | skip
  /-- Its first character is emitted as punctuation. -/
  | punct
  /-- It is white space that announces a level of indentation. -/
  | indent
  | keyword
  /-- It is emitted without its first and last character. -/
  | literal
  | variable
  | unexpected
  deriving DecidableEq, Repr, Inhabited

structure Rule where
  name : String
  source : String
  foldsCase : Bool := false
  action : Action
  deriving DecidableEq, Repr, Inhabited

namespace Rule

def keywordSource : String :=
  "with[ _]options|dataset|for[ _]service|for[ _]stack|define[ _]auth" ++
  "|as|set|to|get|post|from|extract[ _]using|metric|name|type|gauge|counter|histogram" ++
  "|summary|description|labels|help"

/-- The rules of configuration documents. -/
def documentRules : List Rule := [
  { name := "comment", source := "#[^\\n]*", action := .skip },
  { name := "comma", source := ",[ \\t\\r\\n]*", action := .punct },
  { name := "indent", source := "\\n([ \\t\\r\\n]|#[^\\n]*\\n)*", action := .indent },
  { name := "blank", source := "[ \\t\\r]+", action := .skip },
  { name := "keyword", source := keywordSource, foldsCase := true, action := .keyword },
  { name := "dq-string", source := "\"[^\"]*\"", action := .literal },
  { name := "sq-string", source := "'[^']*'", action := .literal },
  { name := "identifier", source := "[a-z_][a-z0-9_]*", action := .variable },
  { name := "unexpected", source := ".", action := .unexpected }]

/-- The patterns of a list of rules. -/
def patterns (rules : List Rule) : Except PatternError PatternSet :=
  PatternSet.compile (rules.map fun r => (r.source, r.foldsCase))

/-- The patterns of configuration documents. -/
def documentPatterns : Except PatternError PatternSet := patterns documentRules

end Rule

end ScrapeConfig
