import Parlance.Operator.Table

/-! The operators of the standard language. -/
namespace Parlance

def unrelatedStandardOperators : OperatorTable :=
  OperatorTable.empty
    |>.addInfix "mul" "*" .left
    |>.addInfix "div" "/" .left
    |>.addInfix "plus" "+" .left
    |>.addInfix "minus" "-" .left
    |>.addPrefix "neg" "-"
    |>.addInfix "ass" "=" .right
    |>.addInfix "eq" "==" .nonAssoc
    |>.addInfix "ne" "!=" .nonAssoc
    |>.addInfix "gt" ">" .nonAssoc
    |>.addInfix "gte" ">=" .nonAssoc
    |>.addInfix "lt" "<" .nonAssoc
    |>.addInfix "lte" "<=" .nonAssoc
    |>.addInfix "comma" "," .right
    |>.addEncloser "lparen" "(" "rparen" ")"
    |>.addEncloser "fnbody" "\x7b" "fnbodyc" "\x7d"
    |>.addEncloser "fnargdef" "[" "fnargdefc" "]"

def standardOperators : OperatorTable :=
  let mul := 0; let div := 1; let plus := 2; let minus := 3; let neg := 4; let assign := 5
  let comparisons := [6, 7, 8, 9, 10, 11]
  let comma := 12
  let arithmetic := [mul, div, neg, plus, minus]
  unrelatedStandardOperators
    |>.makeEqual [mul, div]
    |>.makeEqual [plus, minus]
    |>.makeEqual comparisons
    |>.makeGreater [mul, div, neg] [plus, minus]
    |>.makeGreater arithmetic comparisons
    |>.makeGreater (arithmetic ++ comparisons) [assign]
    |>.makeGreater (arithmetic ++ comparisons ++ [assign]) [comma]

end Parlance
