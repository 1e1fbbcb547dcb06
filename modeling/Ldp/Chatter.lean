import Ldp.Endpoint
import Ldp.Framework.Lines

/-!
# A chatter and standard input

The loop of the constructors of `Chatter`, client and server alike: it reads a line of
standard input into an array and passes the string in it to `sendMessage`, without end.
It ignores what `fgets` returns.
-/

namespace Ldp

open Framework

abbrev MAXBUFLEN : Nat := 123

abbrev newline : UInt8 := 10

/-- `fgets(s, n, stdin)`: the array and what is left of standard input. It stores a line of
at most `n - 1` characters and a NUL; at the end of standard input it returns `NULL`, and
the array is as it was. -/
def fgets {n : Nat} (s : Vector UInt8 n) (stdin : List UInt8) : Vector UInt8 n × List UInt8 :=
  if stdin = [] then (s, stdin)
  else
    let line := Lines.takeLine newline (n - 1) stdin
    (Vector.ofFn fun i => (line ++ [0])[i.val]?.getD (s.get i), stdin.drop line.length)

/-- The `std::string` of a C string in an array; without a NUL in it, it is undefined. -/
def stringOf {n : Nat} (s : Vector UInt8 n) : Option (List UInt8) :=
  if 0 ∈ s.toList then some (s.toList.takeWhile (· ≠ 0)) else none

/-- A `Chatter` in the loop of its constructor: its `LDP` object, which the thread of the
loop is the only caller of, and what is left of standard input. -/
structure Chatter where
  ldp : Endpoint
  stdin : List UInt8

namespace Chatter

/-- The state before the loop. -/
def construct (isClient : Bool) (memory resolved : Sockaddr) (stdin : List UInt8) : Chatter where
  ldp := .chatter isClient memory resolved 1
  stdin

/-- What can happen next: the loop begins another pass, with what the memory of its array
holds, or something that is not a call of `send` happens to the `LDP` object. -/
inductive Event
  | pass (message : Vector UInt8 MAXBUFLEN)
  | ldp (e : Endpoint.Event)

/-- `sendMessage`, which calls `send`. -/
def sendMessage (host : ByteOrder) (c : Chatter) (message : List UInt8) : Option Endpoint :=
  c.ldp.step host (.call 0 message)

/-- One step. A pass begins only after `sendMessage` of the previous one has returned, as a
thread in `send` does not call it. -/
def step (host : ByteOrder) (c : Chatter) : Event → Option Chatter
  | .pass message => do
    let (message, stdin) := fgets message c.stdin
    let string ← stringOf message
    let ldp ← sendMessage host c string
    some { ldp, stdin }
  | .ldp (.call ..) => none
  | .ldp e => do
    let ldp ← c.ldp.step host e
    some { c with ldp }

end Chatter
end Ldp
