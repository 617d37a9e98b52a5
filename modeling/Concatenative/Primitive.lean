set_option autoImplicit false

namespace Concatenative

inductive Constant where
  | boolean (b : Bool)
  | integer (n : Int64)
  deriving DecidableEq, Repr

inductive Primitive where
  | dup | drop | swap | over | rot | nip | depth | clear
  | constant (c : Constant)
  | add | subtract | multiply | divide | remainder
  | equal | less | greater
  | negate | both | either
  | call | choose | when | unless
  | define
  | recover | ignoreErrors | throw
  | listWords | see
  | showValue | showStack | print | newline
  | load
  deriving DecidableEq, Repr

structure PrimitiveEntry where
  name : String
  primitive : Primitive
  description : String
  signature : String
  deriving DecidableEq, Repr

namespace Primitive

/-- No word of the language stands for a number, but a program that brings words of its own can have
one that does. -/
def number (n : Int64) : Primitive := .constant (.integer n)

def stackEntries : List PrimitiveEntry := [
  ⟨"dup", .dup, "Duplicate the top value on the data stack.", "value -- value value"⟩,
  ⟨"drop", .drop, "Discard the top value on the data stack.", "value --"⟩,
  ⟨"swap", .swap, "Swap the top 2 values on the data stack.", "a b -- b a"⟩,
  ⟨"over", .over, "Copy the second value over the top value.", "a b -- a b a"⟩,
  ⟨"rot", .rot, "Rotate the third value to the top of the stack.", "a b c -- b c a"⟩,
  ⟨"nip", .nip, "Discard the second value on the data stack.", "a b -- b"⟩,
  ⟨"depth", .depth, "Get the depth of the stack before calling this word.", "-- depth"⟩,
  ⟨"clear", .clear, "Drop every value on the data stack.", "--"⟩]

def constantEntries : List PrimitiveEntry := [
  ⟨"t", .constant (.boolean true), "Push the value true.", "-- t"⟩,
  ⟨"f", .constant (.boolean false), "Push the value false.", "-- f"⟩]

def arithmeticEntries : List PrimitiveEntry := [
  ⟨"+", .add, "Add two numbers.", "a b -- sum"⟩,
  ⟨"-", .subtract, "Subtract the top number from the one below it.", "a b -- difference"⟩,
  ⟨"*", .multiply, "Multiply two numbers.", "a b -- product"⟩,
  ⟨"/", .divide, "Divide the second number by the top number, truncating.",
    "a b -- quotient"⟩,
  ⟨"mod", .remainder, "Remainder of dividing the second number by the top number.",
    "a b -- remainder"⟩,
  ⟨"=", .equal, "Are the two numbers equal?", "a b -- bool"⟩,
  ⟨"<", .less, "Is the second number less than the top number?", "a b -- bool"⟩,
  ⟨">", .greater, "Is the second number greater than the top number?", "a b -- bool"⟩,
  ⟨"not", .negate, "Logically invert a condition.", "bool -- bool"⟩,
  ⟨"and", .both, "Are both conditions true?", "a b -- bool"⟩,
  ⟨"or", .either, "Is either condition true?", "a b -- bool"⟩]

def controlEntries : List PrimitiveEntry := [
  ⟨"call", .call, "Execute a quotation.", "quotation -- ???"⟩,
  ⟨"if", .choose,
    "Execute the first quotation if the condition is true, otherwise the second.",
    "condition then: ( -- ??? ) else: ( -- ??? ) -- ???"⟩,
  ⟨"when", .when, "Execute the quotation if the condition is true.",
    "condition quotation -- ???"⟩,
  ⟨"unless", .unless, "Execute the quotation if the condition is false.",
    "condition quotation -- ???"⟩]

def definitionEntries : List PrimitiveEntry := [
  ⟨";", .define,
    "Bind a quotation to a name as a new word, documenting it with an optional stack effect.",
    "name effect? body: ( -- ??? ) --"⟩]

def errorEntries : List PrimitiveEntry := [
  ⟨"recover", .recover,
    "Execute the try quotation, on failure push the error and execute the recover quotation.",
    "try: ( -- ??? ) recover: ( error -- ??? ) -- ???"⟩,
  ⟨"ignore-errors", .ignoreErrors, "Execute a quotation, discarding any failure.",
    "quotation -- ???"⟩,
  ⟨"throw", .throw, "Fail with the given message.", "message --"⟩]

def wordEntries : List PrimitiveEntry := [
  ⟨".w", .listWords, "Print out the words in the dictionary.", "--"⟩,
  ⟨"see", .see, "Print the definition of the named word.", "name --"⟩]

def outputEntries : List PrimitiveEntry := [
  ⟨".", .showValue, "Print the top value and remove it from the stack.", "value --"⟩,
  ⟨".s", .showStack, "Print the contents of the data stack.", "--"⟩,
  ⟨"print", .print, "Print a string without quotes.", "string --"⟩,
  ⟨"cr", .newline, "Print a newline.", "--"⟩,
  ⟨"load", .load, "Load and run a source file.", "path -- ???"⟩]

def entries : List PrimitiveEntry :=
  stackEntries ++ constantEntries ++ arithmeticEntries ++ controlEntries ++
    definitionEntries ++ errorEntries ++ wordEntries ++ outputEntries

end Primitive
end Concatenative
