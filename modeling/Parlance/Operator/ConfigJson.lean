import Parlance.Json.Codec
import Parlance.Operator.Config

/-! Operator configurations as JSON, as far as the types declare it: all four lists may be left out and are
written nevertheless, an associativity is written only if there is one. -/
namespace Parlance

open Json (Codec Library)
open Json.Library (text list option words record)

def Fixity.word : Fixity → String
  | .infixOp => "infix"
  | .prefixOp => "prefix"

namespace OperatorConfig

variable [Library]

def fixity : Codec Fixity := words Fixity.word [.infixOp, .prefixOp]

def associativity : Codec Associativity := words Associativity.name [.left, .right, .nonAssoc]

def operatorEntry : Codec OperatorEntry :=
  (record (.required "name" text <| .required "symbol" text <| .required "category" fixity <|
    .optional "assoc" (option associativity) none Option.isNone .done)).along
    (fun e => (e.name, e.symbol, e.category, e.assoc, ()))
    fun (name, symbol, category, assoc, _) => ⟨name, symbol, category, assoc⟩

def namedSymbol : Codec NamedSymbol :=
  (record (.required "name" text <| .required "symbol" text .done)).along
    (fun s => (s.name, s.symbol, ())) fun (name, symbol, _) => ⟨name, symbol⟩

def encloserEntry : Codec EncloserEntry :=
  (record (.required "open" namedSymbol <| .required "close" namedSymbol .done)).along
    (fun e => (e.opening, e.closing, ())) fun (opening, closing, _) => ⟨opening, closing⟩

def greaterEntry : Codec GreaterEntry :=
  (record (.required "group" (list text) <| .required "than" (list text) .done)).along
    (fun e => (e.group, e.than, ())) fun (group, than, _) => ⟨group, than⟩

def config : Codec OperatorConfig :=
  let never {α : Type} : List α → Bool := fun _ => false
  (record (.optional "operators" (list operatorEntry) [] never <|
    .optional "enclosers" (list encloserEntry) [] never <|
    .optional "equal" (list (list text)) [] never <|
    .optional "greater" (list greaterEntry) [] never .done)).along
    (fun c => (c.operators, c.enclosers, c.equal, c.greater, ()))
    fun (operators, enclosers, equal, greater, _) => ⟨operators, enclosers, equal, greater⟩

def ofJson (source : String) : Except ConfigError OperatorConfig :=
  match (Library.parse source).bind config.read with
  | some c => .ok c
  | none => .error .json

def toJson (c : OperatorConfig) : String := Library.print (config.write c)

end OperatorConfig

def OperatorTable.ofJson [Library] (source : String) : Except ConfigError OperatorTable :=
  match OperatorConfig.ofJson source with
  | .error e => .error e
  | .ok c => c.toTable

end Parlance
