import LoxMachine.Bytes

/-!
# Options

What a session can be asked to do differently.  All options are off by default.
-/

namespace LoxMachine

/-- The options of a session: three dumps of what was compiled, two ways to be
lenient about the number of arguments, and silence. -/
structure Options where
  printTokens : Bool := false
  printTree : Bool := false
  printLocals : Bool := false
  allowUnderApplication : Bool := false
  allowOverApplication : Bool := false
  disablePrint : Bool := false
  deriving DecidableEq

namespace Options

/-- The names of the options. -/
inductive Field where
  | printTokens
  | printTree
  | printLocals
  | allowUnderApplication
  | allowOverApplication
  | disablePrint
  deriving DecidableEq

namespace Field

def all : List Field :=
  [.printTokens, .printTree, .printLocals, .allowUnderApplication, .allowOverApplication,
    .disablePrint]

def name : Field → Bytes
  | .printTokens => utf8 "print_tokens"
  | .printTree => utf8 "print_tree"
  | .printLocals => utf8 "print_locals"
  | .allowUnderApplication => utf8 "allow_under_application"
  | .allowOverApplication => utf8 "allow_over_application"
  | .disablePrint => utf8 "disable_print"

def ofName? (name : Bytes) : Option Field :=
  all.find? fun field => field.name = name

end Field

def get (options : Options) : Field → Bool
  | .printTokens => options.printTokens
  | .printTree => options.printTree
  | .printLocals => options.printLocals
  | .allowUnderApplication => options.allowUnderApplication
  | .allowOverApplication => options.allowOverApplication
  | .disablePrint => options.disablePrint

def set (options : Options) (field : Field) (value : Bool) : Options :=
  match field with
  | .printTokens => { options with printTokens := value }
  | .printTree => { options with printTree := value }
  | .printLocals => { options with printLocals := value }
  | .allowUnderApplication => { options with allowUnderApplication := value }
  | .allowOverApplication => { options with allowOverApplication := value }
  | .disablePrint => { options with disablePrint := value }

/-- An option is on if it is on in either. -/
def merge (a b : Options) : Options where
  printTokens := a.printTokens || b.printTokens
  printTree := a.printTree || b.printTree
  printLocals := a.printLocals || b.printLocals
  allowUnderApplication := a.allowUnderApplication || b.allowUnderApplication
  allowOverApplication := a.allowOverApplication || b.allowOverApplication
  disablePrint := a.disablePrint || b.disablePrint

end Options

end LoxMachine
