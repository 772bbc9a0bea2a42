-- The two parsers of URIs. `parse` takes a whole URI apart with a regular
-- expression, and `parseTarget` splits the target of a request.
import Pwned.Library.Regex

namespace webservice

/-- The bytes of an ASCII text. -/
def ascii (s : String) : List UInt8 := s.toList.map fun c => UInt8.ofNat c.toNat

/-! ## The grammar of URIs -/

namespace RE

open Regex

/-- A bracket expression, with the punctuation that it has after `!$&'()*+,;=`. -/
def bracket (extra : String) : List UInt8 :=
  ascii "abcdefghijklmnopqrstuvwxyz" ++ ascii "0123456789" ++ ascii "-._~!$&'()*+,;=" ++
    ascii extra

/-- `%[0-9A-F]{2}` -/
def escape : Regex UInt8 :=
  let hex := oneOf (ascii "0123456789ABCDEF")
  seq (oneOf (ascii "%")) (seq hex hex)

/-- One character, plain or escaped. -/
def char (extra : String) : Regex UInt8 := alt (oneOf (bracket extra)) escape

def scheme : Regex UInt8 :=
  plus (oneOf (ascii "abcdefghijklmnopqrstuvwxyz" ++ ascii "0123456789" ++ ascii "+.-"))

def slash : Regex UInt8 := oneOf (ascii "/")

/-- What stands behind two slashes. -/
def authority : Regex UInt8 :=
  seq (seq slash slash)
    (seq (opt (seq (group 2 (star (char ":"))) (oneOf (ascii "@"))))
      (seq (group 3 (star (char "")))
        (seq (opt (seq (oneOf (ascii ":")) (group 4 (star (oneOf (ascii "0123456789"))))))
          (opt (group 5 (seq slash (star (char ":@/"))))))))

/-- What stands there without two slashes. -/
def opaquePath : Regex UInt8 :=
  opt (group 6 (seq (opt slash) (seq (plus (char ":@")) (star (char ":@/")))))

def query : Regex UInt8 := opt (seq (oneOf (ascii "?")) (group 7 (star (char ":/?@"))))

def fragment : Regex UInt8 := opt (seq (oneOf (ascii "#")) (group 8 (star (char ":/?@"))))

end RE

/-- `RE` -/
def RE : Regex UInt8 :=
  .seq (.group 1 RE.scheme)
    (.seq (.oneOf (ascii ":"))
      (.seq (.alt RE.authority RE.opaquePath) (.seq RE.query RE.fragment)))

/-! ## URIs -/

/-- What the parsers fill in. The newest parameter of the query stands first. -/
structure URI where
  mPath : List UInt8 := []
  mQuery : List (List UInt8 × List UInt8) := []
  mFragment : List UInt8 := []
  mIsValid : Bool := false
  mScheme : List UInt8 := []
  mUsername : List UInt8 := []
  mPassword : List UInt8 := []
  mHost : List UInt8 := []
  mPort : BitVec 16 := 0
deriving DecidableEq, Repr

namespace URI

/-- `SchemeToPort` -/
def schemeToPort (scheme : List UInt8) : Option (BitVec 16) :=
  if scheme = ascii "http" then some 80
  else if scheme = ascii "https" then some 443
  else none

/-- `std::stoi` of decimal digits. It throws when an `int` cannot hold the number. -/
def stoi (digits : List UInt8) : Option Nat :=
  let n := digits.foldl (fun n c => 10 * n + (c.toNat - 48)) 0
  if n < 2 ^ 31 then some n else none

/-- One turn of the loop over the parameters. One without exactly one `=` is left out. -/
def addParam (uri : URI) (param : List UInt8) : URI :=
  match param.splitOn 61 with
  | [key, value] => { uri with mQuery := (key, value) :: uri.mQuery }
  | _ => uri

/-- One turn of the loop of `parse`, which marks the URI as well. -/
def addValidParam (uri : URI) (param : List UInt8) : URI :=
  match param.splitOn 61 with
  | [key, value] => { uri with mQuery := (key, value) :: uri.mQuery }
  | _ => { uri with mIsValid := false }

/-- The branch of `parse` for the credentials. -/
def setCredentials (uri : URI) (credentials : List UInt8) : URI :=
  match credentials.splitOn 58 with
  | [username, password] => { uri with mUsername := username, mPassword := password }
  | _ => { uri with mIsValid := false }

/-- The branch of `parse` for the port. -/
def setPort (uri : URI) (port : List UInt8) : Option URI :=
  if 0 < port.length then
    (stoi port).map fun port => { uri with mPort := BitVec.ofNat 16 port }
  else match schemeToPort uri.mScheme with
    | some port => some { uri with mPort := port }
    | none => some uri

/-- `parse(uri)`, `none` when `std::stoi` throws. A match has all the groups of the
expression, and those that took no part are empty. -/
def parse (uri : URI) (s : List UInt8) : Option URI := do
  let uri := { uri with mIsValid := true }
  match RE.search s with
  | none => some uri
  | some m =>
    let uri := { uri with mScheme := Regex.str m 1 }
    let uri := uri.setCredentials (Regex.str m 2)
    let uri := { uri with mHost := Regex.str m 3 }
    let uri ← uri.setPort (Regex.str m 4)
    let uri := { uri with mPath := Regex.str m 5 }
    let uri := ((Regex.str m 7).splitOn 38).foldl addValidParam uri
    some { uri with mFragment := Regex.str m 8 }

def parseTarget (uri : URI) (target : List UInt8) : URI :=
  let pathAndQuery := target.splitOn 63
  let uri := match pathAndQuery[0]? with
    | some path => { uri with mPath := path }
    | none => uri
  match pathAndQuery[1]? with
  | none => uri
  | some query =>
    let queryAndFragment := query.splitOn 35
    let uri := match queryAndFragment[0]? with
      | some params => (params.splitOn 38).foldl addParam uri
      | none => uri
    match queryAndFragment[1]? with
    | some fragment => { uri with mFragment := fragment }
    | none => uri

def isValid (uri : URI) : Bool := uri.mIsValid

/-- `query().find(key)`: the value that was assigned last. -/
def find (uri : URI) (key : List UInt8) : Option (List UInt8) := uri.mQuery.lookup key

end URI

end webservice
