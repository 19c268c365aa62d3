import VUbercool.Http.HttpRequest
import VUbercool.Lib.Lexer
import VUbercool.Lib.Peg

/-!
# The parser of requests

`HeaderLexer` and `RequestGrammar` (`HttpRequestParser.h`).

* `LexerState`, `HeaderLexer.table`: the lexer states with their token definitions.
* `RequestGrammar.start`: the grammar with its actions; `requestGrammar`: it reads the tokens of a buffer.
* `requestPart`, `headerLines`: the octets of a buffer that `request_` and each `header_` take.
-/

namespace VUbercool.Http

open Octets Lexer Peg

/-! ## The lexer -/

/-- The lexer states. -/
inductive LexerState where
  | initial | uri | httpVersion | headerName | headerContent | headerDnt | acceptEncoding
  deriving DecidableEq

/-- The states within the headers. -/
def LexerState.ofHeader : LexerState → Bool
  | .initial | .uri | .httpVersion => false
  | .headerName | .headerContent | .headerDnt | .acceptEncoding => true

/-- `boost::spirit::lex::min_token_id`. -/
def minTokenId : ℕ := 65536

/-- `TOK_CRLF`. -/
def tokCrlf : ℕ := minTokenId + 10

/-- `TOK_STRING`. -/
def tokString : ℕ := minTokenId + 11

/-- `\s`. -/
def isSpace (c : UInt8) : Bool := c == 32 || (9 ≤ c && c ≤ 13)

/-- `\S`. -/
def isVisible (c : UInt8) : Bool := !isSpace c

/-- `[a-zA-Z]`. -/
def isLetter (c : UInt8) : Bool := (97 ≤ c && c ≤ 122) || (65 ≤ c && c ≤ 90)

/-- `[\w\-]`. -/
def isNameChar (c : UInt8) : Bool := isLetter c || isDigit c || c == 95 || c == 45

/-- `" |\t"`. -/
def isBlank (c : UInt8) : Bool := c == 32 || c == 9

namespace HeaderLexer

/-- `token_def`. -/
abbrev TokenDef : Type := Lexer.TokenDef ℕ LexerState

/-- `[_state = ...]`. -/
def goto (d : TokenDef) (state : LexerState) : TokenDef := { d with target := some state }

/-! Definitions without an id are given the next one from `min_token_id` on, in the order in which the
states name them. So `http_1_0` and `http_1_1` have the ids `TOK_CRLF` and `TOK_STRING`. -/

def mGet : TokenDef := { id := minTokenId, pattern := caseless (ascii "get") }
def mOptions : TokenDef := { id := minTokenId + 1, pattern := caseless (ascii "options") }
def mHead : TokenDef := { id := minTokenId + 2, pattern := caseless (ascii "head") }
def mPost : TokenDef := { id := minTokenId + 3, pattern := caseless (ascii "post") }
def mPut : TokenDef := { id := minTokenId + 4, pattern := caseless (ascii "put") }
def mDelete : TokenDef := { id := minTokenId + 5, pattern := caseless (ascii "delete") }
def mTrace : TokenDef := { id := minTokenId + 6, pattern := caseless (ascii "trace") }
def mConnect : TokenDef := { id := minTokenId + 7, pattern := caseless (ascii "connect") }
def mAny : TokenDef := { id := minTokenId + 8, pattern := many1 isVisible }
def mSpace : TokenDef := { id := 32, pattern := literal [32] }
def uri : TokenDef := { id := minTokenId + 9, pattern := many1 isVisible }
def uriSpace : TokenDef := { id := 32, pattern := literal [32] }
def http10 : TokenDef := { id := minTokenId + 10, pattern := caseless (ascii "http/1.0") }
def http11 : TokenDef := { id := minTokenId + 11, pattern := caseless (ascii "http/1.1") }
def httpCrlf : TokenDef := { id := tokCrlf, pattern := literal [13, 10] }
def crlf : TokenDef := { id := tokCrlf, pattern := literal [13, 10] }
def hHost : TokenDef := { id := minTokenId + 12, pattern := caseless (ascii "host") }
def hDnt : TokenDef := { id := minTokenId + 13, pattern := caseless (ascii "dnt:") }
def hAcceptEncoding : TokenDef :=
  { id := minTokenId + 14, pattern := caseless (ascii "accept-encoding:") }
def hAny : TokenDef := { id := minTokenId + 15, pattern := many1 isNameChar }
def column : TokenDef := { id := 58, pattern := literal [58] }
def lws : TokenDef := { id := 32, pattern := literal [13, 10, 32] }
def space : TokenDef := { id := 32, pattern := classes [isBlank] }
def str : TokenDef := { id := tokString, pattern := many1 isVisible }
def hdrCrlf : TokenDef := { id := tokCrlf, pattern := literal [13, 10] }
def dntSpace : TokenDef := { id := 32, pattern := classes [isBlank] }
def dntOn : TokenDef := { id := minTokenId + 16, pattern := literal (ascii "1") }
def dntOff : TokenDef := { id := minTokenId + 17, pattern := literal (ascii "0") }
def dntCrlf : TokenDef := { id := tokCrlf, pattern := literal [13, 10] }
def acceptEncodingSpace : TokenDef := dntSpace
def comma : TokenDef := { id := 44, pattern := literal [44] }
def acceptEncodingGzip : TokenDef := { id := minTokenId + 18, pattern := caseless (ascii "gzip") }
def acceptEncodingDeflate : TokenDef := { id := minTokenId + 19, pattern := caseless (ascii "deflate") }
def acceptEncodingCrlf : TokenDef := crlf
def acceptEncodingQvalue : TokenDef :=
  { id := minTokenId + 20
    pattern := classes [(· == 59), (· == 113), (· == 61), isDigit, (· == 46), isDigit] }
def acceptEncodingOther : TokenDef := { id := minTokenId + 21, pattern := classes [isLetter] }

/-- **The token definitions of each state.** -/
def table : Table ℕ LexerState
  | .initial => [mGet, mOptions, mHead, mPost, mPut, mDelete, mTrace, mConnect, mAny, goto mSpace .uri]
  | .uri => [uri, goto uriSpace .httpVersion]
  | .httpVersion => [http10, http11, goto httpCrlf .headerName]
  | .headerName => [crlf, hHost, goto hDnt .headerDnt, goto hAcceptEncoding .acceptEncoding, hAny,
      goto column .headerContent]
  | .headerContent => [lws, space, str, goto hdrCrlf .headerName]
  | .headerDnt => [dntSpace, dntOn, dntOff, goto dntCrlf .headerName]
  | .acceptEncoding => [acceptEncodingSpace, comma, acceptEncodingGzip, acceptEncodingDeflate,
      goto acceptEncodingCrlf .headerName, acceptEncodingQvalue, acceptEncodingOther]

end HeaderLexer

open HeaderLexer (table)

/-- A token of a request. -/
abbrev HttpToken : Type := Token ℕ LexerState

/-! ## The grammar -/

namespace RequestGrammar

open HeaderLexer

/-- A rule. -/
abbrev Rule : Type := Parser HttpToken HttpRequest

/-- A token definition as a parser, with a semantic action: a token has its id and its state. -/
def tokWith (d : TokenDef) (state : LexerState) (action : HttpToken → HttpRequest → HttpRequest) : Rule :=
  token (fun t => t.id == d.id && t.state == state) action

/-- A token definition as a parser. -/
def tok (d : TokenDef) (state : LexerState) : Rule := tokWith d state fun _ req => req

/-- `token(id)`, and a character: the id decides. -/
def tokenId (id : ℕ) : Rule := token (fun t => t.id == id) fun _ req => req

/-- `ws_`. -/
def ws : Rule := tokenId 32

/-- `crlf_`. -/
def crlf : Rule := tokenId tokCrlf

/-- `str_`. -/
def str : Rule := tokenId tokString

/-- `hv_crlf_`. -/
def hvCrlf : Rule := seq (star ws) crlf

/-- `method_`. -/
def method : Rule :=
  alt (tokWith mGet .initial fun _ req => { req with method := .get }) <|
  alt (tokWith mOptions .initial fun _ req => { req with method := .options }) <|
  alt (tokWith mHead .initial fun _ req => { req with method := .head }) <|
  alt (tokWith mPost .initial fun _ req => { req with method := .post }) <|
  alt (tokWith mPut .initial fun _ req => { req with method := .put }) <|
  alt (tokWith mDelete .initial fun _ req => { req with method := .delete }) <|
  alt (tokWith mTrace .initial fun _ req => { req with method := .trace }) <|
  alt (tokWith mConnect .initial fun _ req => { req with method := .connect }) <|
  tok mAny .initial

/-- `http_version_`. -/
def httpVersion : Rule :=
  alt (tokWith http10 .httpVersion fun _ req => { req with version := .http10 })
    (tokWith http11 .httpVersion fun _ req => { req with version := .http11 })

/-- `request_`. -/
def request : Rule :=
  seq method <| seq ws <| seq (tokWith uri .uri fun t req => { req with uri := t.text }) <|
  seq ws <| seq httpVersion crlf

/-- `host_hdr_`. -/
def hostHdr : Rule :=
  seq (tok hHost .headerName) <| seq (tokenId 58) <| seq (star ws) <|
  seq (tokWith HeaderLexer.str .headerContent fun t req => { req with host := t.text }) hvCrlf

/-- `dnt_value_`. -/
def dntValue : Rule :=
  alt (tokWith dntOn .headerDnt fun _ req => { req with doNotTrack := true }) (tok dntOff .headerDnt)

/-- `dnt_hdr_`. -/
def dntHdr : Rule := seq (tok hDnt .headerName) <| seq (star ws) <| seq dntValue hvCrlf

/-- `accept_encoding_value_`. -/
def acceptEncodingValue : Rule :=
  alt (tokWith acceptEncodingGzip .acceptEncoding fun _ req => { req with acceptEncodingGzip := true }) <|
  alt (tokWith acceptEncodingDeflate .acceptEncoding fun _ req =>
    { req with acceptEncodingDeflate := true }) <|
  tok acceptEncodingOther .acceptEncoding

/-- A coding with its q-values, and the commas after it. -/
def coding : Rule :=
  seq (star ws) <| seq acceptEncodingValue <|
  seq (star (tok acceptEncodingQvalue .acceptEncoding)) (star (tokenId 44))

/-- `accept_encoding_hdr_`. -/
def acceptEncodingHdr : Rule :=
  seq (tok hAcceptEncoding .headerName) <| seq (star coding) hvCrlf

/-- `any_hdr_`. -/
def anyHdr : Rule :=
  seq (tok hAny .headerName) <| seq (tokenId 58) <| seq (plus (seq (star ws) str)) hvCrlf

/-- `header_`. -/
def header : Rule := alt hostHdr <| alt dntHdr <| alt acceptEncodingHdr anyHdr

/-- **`start_`.** -/
def start : Rule := seq request <| seq (star header) crlf

end RequestGrammar

/-- The tokens of a buffer. -/
def tokens (b : Bytes) : List HttpToken := lex table .initial b

/-- **The grammar of the parser.** `stop` is where the iterator of the lexer stands after it. -/
def requestGrammar (stop : Bytes → ℕ) : Grammar := fun b req =>
  (((RequestGrammar.start (tokens b) req).1.map fun _ => stop b), (RequestGrammar.start (tokens b) req).2)

/-- The octets of a buffer that `request_` takes. -/
def requestPart (b : Bytes) : Bytes :=
  match RequestGrammar.request (tokens b) {} with
  | (some r, _) => text ((tokens b).take ((tokens b).length - r.length))
  | (none, _) => []

/-- **The header lines of a buffer**: the octets that each `header_` takes. -/
def headerLines (b : Bytes) : List Bytes :=
  match RequestGrammar.request (tokens b) {} with
  | (some r, req) => (pieces RequestGrammar.header r req).map text
  | (none, _) => []

end VUbercool.Http
