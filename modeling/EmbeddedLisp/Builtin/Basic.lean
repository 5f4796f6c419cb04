import EmbeddedLisp.Builtin.Format
import EmbeddedLisp.Environment
import EmbeddedLisp.Evaluation.Call
import EmbeddedLisp.Output.Writer
import EmbeddedLisp.Text.Utf8

/-!
# Built-in functions

The printing functions write to the output of the host and return the number of
bytes with nil, or zero with the message of a failure. The others compute their
result from the arguments alone, save for the one that ends the program.
-/

set_option autoImplicit false

namespace EmbeddedLisp

namespace IntegerType

def name : IntegerType → String
  | .int => "int"
  | .int64 => "int64"
  | .int32 => "int32"
  | .int16 => "int16"
  | .int8 => "int8"

def width : IntegerType → Nat
  | .int | .int64 => 64
  | .int32 => 32
  | .int16 => 16
  | .int8 => 8

def all : List IntegerType := [.int, .int64, .int32, .int16, .int8]

end IntegerType

namespace Builtin

def name : Builtin → String
  | .print => "fmt.Print"
  | .printf => "fmt.Printf"
  | .println => "fmt.Println"
  | .exit => "os.Exit"
  | .integer type => type.name
  | .float64 => "float64"
  | .quote => "quote"
  | .symbol => "symbol"
  | .list => "list"

def signature : Builtin → Signature
  | .print | .println => ⟨[], some .any, 2⟩
  | .printf => ⟨[.str], some .any, 2⟩
  | .exit => ⟨[.int], none, 0⟩
  | .integer _ | .float64 | .quote => ⟨[.any], none, 1⟩
  | .symbol => ⟨[.str], none, 1⟩
  | .list => ⟨[], some .any, 1⟩

def function (b : Builtin) : Value := .function ⟨.builtin b, b.name, b.signature⟩

def cannotConvert (v : Value) (target : String) : Reply :=
  .failed ("cannot convert " ++ v.typeName ++ " " ++ v.render ++ " to " ++ target)

def convertInteger (type : IntegerType) : Value → Reply
  | .int n => .values [.int (Integer.narrow type.width n)]
  | v => cannotConvert v type.name

def convertFloat : Value → Reply
  | .int n => .values [.float (Binary64.ofInt n.toInt)]
  | .float x => .values [.float x]
  | v => cannotConvert v "float64"

def convertSymbol : Value → Reply
  | .str name => .values [.symbol name]
  | v => cannotConvert v "symbol"

def leave : Value → Reply
  | .int code => .exited code
  | _ => .exited 1

/-- A function of its first argument, which the signature promises to be there. -/
def unary (f : Value → Reply) : List Value → Reply
  | v :: _ => f v
  | [] => .crashed (some "missing argument")

variable {ω : Type}

def printText (w : Writer ω) (text : List Char) (output : ω) : Reply × ω :=
  let bytes := utf8 (String.ofList text)
  match w.emit bytes output with
  | (.ok (), output) => (.values [.int (Int64.ofNat bytes.length), .nil], output)
  | (.error message, output) => (.values [.int 0, .str message], output)

def run (w : Writer ω) : Builtin → List Value → ω → Reply × ω
  | .print, args, output => printText w (Format.joined args) output
  | .printf, args, output => printText w (Format.formatted args) output
  | .println, args, output => printText w (Format.line args) output
  | .exit, args, output => (unary leave args, output)
  | .integer type, args, output => (unary (convertInteger type) args, output)
  | .float64, args, output => (unary convertFloat args, output)
  | .quote, args, output => (unary (fun v => .values [.quote v]) args, output)
  | .symbol, args, output => (unary convertSymbol args, output)
  | .list, args, output => (.values [.list args], output)

end Builtin

/-- The functions that the embedding program adds, by number. -/
abbrev Foreign (ω : Type) := Nat → List Value → ω → Reply × ω

def Foreign.none {ω : Type} : Foreign ω :=
  fun _ _ output => (.failed "unknown function", output)

def Host.standard {ω : Type} (w : Writer ω) (foreign : Foreign ω) : Host ω
  | .builtin b => b.run w
  | .foreign n => foreign n

namespace Library

def name : Library → String
  | .fmt => "fmt"
  | .os => "os"

def functions : Library → List (String × Builtin)
  | .fmt => [("Print", .print), ("Printf", .printf), ("Println", .println)]
  | .os => [("Exit", .exit)]

def table (l : Library) : Value :=
  .table (.builtin l) l.name
    (Bindings.ofEntries (l.functions.map fun (field, b) => (field, b.function)))

end Library

def Builtin.global : List Builtin :=
  IntegerType.all.map .integer ++ [.float64, .quote, .symbol, .list]

def standardBindings : List (String × Value) :=
  [Library.fmt, Library.os].map (fun l => (l.name, l.table)) ++
    Builtin.global.map fun b => (b.name, b.function)

def Environment.standard : Environment := ⟨Bindings.ofEntries standardBindings, []⟩

end EmbeddedLisp
