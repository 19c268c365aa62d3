import VUbercool.Http.HttpRequest

/-!
# Replies

`CurrentReply` (`HttpDaemon.cpp`).

* `strftime`, `gmtime`: the date of a reply. `CachedDate`: the date string of a thread.
* `CurrentReply`: `prepare`, `out`, `doReply`, `reply`, `replyWithError`; `octets` is what is sent.
* `octets_reply`, `octets_replyWithError`: **what is sent**, a head and, unless the method is `HEAD`, a body.
-/

namespace VUbercool.Http

open Octets

/-! ## Texts -/

/-- The octets of a number in decimal. -/
def decimal (n : ℕ) : Bytes := (Nat.toDigits 10 n).map fun d => UInt8.ofNat d.toNat

/-- An `int` as an output stream shows it. -/
def decimalInt : Int → Bytes
  | .ofNat n => decimal n
  | .negSucc n => 45 :: decimal (n + 1)

/-- `%d`, `%H`, `%M` and `%S`: two digits. -/
def twoDigits (n : ℕ) : Bytes := [UInt8.ofNat (48 + n / 10 % 10), UInt8.ofNat (48 + n % 10)]

def crlf : Bytes := [13, 10]

/-! ## Dates -/

/-- `tm`, as far as a date shows it. -/
structure Tm where
  sec : ℕ
  min : ℕ
  hour : ℕ
  mday : ℕ
  mon : ℕ
  year : Int
  wday : ℕ

/-- `gmtime_r`: the civil date of a number of seconds since 1970, counted in eras of 400 years that begin
in March. -/
def gmtime (t : Int) : Tm :=
  let days := t.fdiv 86400
  let secs := (t.fmod 86400).toNat
  let z := days + 719468
  let era := z.fdiv 146097
  let doe := (z.fmod 146097).toNat
  let yoe := (doe - doe / 1460 + doe / 36524 - doe / 146096) / 365
  let doy := doe - (365 * yoe + yoe / 4 - yoe / 100)
  let mp := (5 * doy + 2) / 153
  let mon := if mp < 10 then mp + 2 else mp - 10
  { sec := secs % 60
    min := secs / 60 % 60
    hour := secs / 3600
    mday := doy - (153 * mp + 2) / 5 + 1
    mon
    year := era * 400 + yoe + if mon ≤ 1 then 1 else 0
    wday := ((days + 4).fmod 7).toNat }

/-- `%a`. -/
def dayName : ℕ → Bytes
  | 0 => ascii "Sun"
  | 1 => ascii "Mon"
  | 2 => ascii "Tue"
  | 3 => ascii "Wed"
  | 4 => ascii "Thu"
  | 5 => ascii "Fri"
  | _ => ascii "Sat"

/-- `%b`. -/
def monthName : ℕ → Bytes
  | 0 => ascii "Jan"
  | 1 => ascii "Feb"
  | 2 => ascii "Mar"
  | 3 => ascii "Apr"
  | 4 => ascii "May"
  | 5 => ascii "Jun"
  | 6 => ascii "Jul"
  | 7 => ascii "Aug"
  | 8 => ascii "Sep"
  | 9 => ascii "Oct"
  | 10 => ascii "Nov"
  | _ => ascii "Dec"

/-- `strftime` with the format `%a, %d %b %Y %H:%M:%S GMT`. -/
def strftime (tm : Tm) : Bytes :=
  dayName tm.wday ++ ascii ", " ++ twoDigits tm.mday ++ ascii " " ++ monthName tm.mon ++ ascii " " ++
    decimalInt tm.year ++ ascii " " ++ twoDigits tm.hour ++ ascii ":" ++ twoDigits tm.min ++ ascii ":" ++
    twoDigits tm.sec ++ ascii " GMT"

example : strftime (gmtime 784111777) = ascii "Sun, 06 Nov 1994 08:49:37 GMT" := by decide +kernel

/-- **The date string of a thread** (`date`): empty until a reply needs it, then some date. -/
structure CachedDate where
  text : Bytes
  valid : text = [] ∨ ∃ t, text = strftime (gmtime t)

/-- A thread starts with an empty date string. -/
def CachedDate.empty : CachedDate := ⟨[], .inl rfl⟩

/-- The date is formatted again if the clock does not show `last_time`, which nothing ever sets: it stays
0. -/
def CachedDate.refresh (date : CachedDate) (now : Int) : CachedDate :=
  if now ≠ 0 then ⟨strftime (gmtime now), .inr ⟨now, rfl⟩⟩ else date

/-! ## Replies -/

/-- `HttpConfig`, as far as replies use it. -/
structure HttpConfig where
  allowDeflate : Bool := false
  allowGzip : Bool := false

/-- The compression filters. -/
inductive Compression where
  | gzip | deflate
  deriving DecidableEq

/-- `compression_type_`, where it is set. -/
def Compression.name : Compression → Bytes
  | .gzip => ascii "gzip"
  | .deflate => ascii "deflate"

/-- `CurrentReply`. `body` is what has been written to the stream `body_` since its filters were set up;
`compressionType` names the filter in front of the string `body_str_`. -/
structure CurrentReply where
  header : Bytes := []
  body : Bytes := []
  streamLayers : ℕ := 0
  headerStr : Bytes := []
  bodyStr : Bytes := []
  closeOnReply : Bool := false
  buffers : List Bytes := []
  compressionType : Option Compression := none
  now : Int := 0
  bytesInReply : ℕ := 0

namespace CurrentReply

section

variable (compress : Compression → Bytes → Bytes)

/-- What the filters make of what is written through them. -/
def filter : Option Compression → Bytes → Bytes
  | some type, text => compress type text
  | none, text => text

/-- `ResetStreamLayers`: the last layer appends what has been written to `body_str_`. -/
def resetStreamLayers (r : CurrentReply) : CurrentReply :=
  if 0 < r.streamLayers then { r with
    bodyStr := r.bodyStr ++ filter compress r.compressionType r.body
    body := []
    streamLayers := 0 }
  else r

/-- `Reset`. -/
def reset (r : CurrentReply) : CurrentReply :=
  { r.resetStreamLayers compress with
    header := []
    body := []
    bodyStr := []
    headerStr := []
    compressionType := none
    bytesInReply := 0 }

/-- `Prepare`, with what the clock shows. -/
def prepare (r : CurrentReply) (now : Int) (req : HttpRequest) (config : HttpConfig) : CurrentReply :=
  let r := { r.reset compress with now }
  let r :=
    if req.acceptEncodingGzip && config.allowGzip then
      { r with streamLayers := r.streamLayers + 1, compressionType := some .gzip }
    else if req.acceptEncodingDeflate && config.allowDeflate then
      { r with streamLayers := r.streamLayers + 1, compressionType := some .deflate }
    else r
  { r with streamLayers := r.streamLayers + 1 }

/-- `Out() << text`. -/
def out (r : CurrentReply) (text : Bytes) : CurrentReply := { r with body := r.body ++ text }

/-- The fields of the head after the date: `Server` to `Keep-Alive`. -/
def fields (contentLength : ℕ) (compressionType : Option Compression) (closeOnReply : Bool) : Bytes :=
  ascii "Server: vUbercool/0.20" ++ crlf ++
    ascii "Content-Length: " ++ decimal contentLength ++ crlf ++
    ascii "Content-Type: text/html; charset=utf-8" ++ crlf ++
    (match compressionType with
      | some type => ascii "Content-Encoding: " ++ type.name ++ crlf
      | none => []) ++
    if closeOnReply then ascii "Connection: Close" ++ crlf
    else ascii "Connection: Keep-Alive" ++ crlf ++ ascii "Keep-Alive: timeout=5, max=100" ++ crlf

/-- `DoReply`, with the date string of the thread. -/
def doReply (r : CurrentReply) (date : CachedDate) (code : Int) (msg : Bytes) (req : HttpRequest) :
    CurrentReply × CachedDate :=
  let r := r.resetStreamLayers compress
  let date := date.refresh r.now
  let header := r.header ++ req.getHttpVersionName ++ ascii " " ++ decimalInt code ++ ascii " " ++ msg ++
    crlf ++ date.text ++ crlf ++ fields r.bodyStr.length r.compressionType r.closeOnReply ++ crlf
  let r := { r with header, headerStr := header, buffers := [header]
                    bytesInReply := r.bytesInReply + header.length }
  if req.method ≠ .head then
    ({ r with buffers := r.buffers ++ [r.bodyStr], bytesInReply := r.bytesInReply + r.bodyStr.length }, date)
  else (r, date)

/-- `Reply`. -/
def reply (r : CurrentReply) (date : CachedDate) (code : Int) (req : HttpRequest) :
    CurrentReply × CachedDate :=
  { r with closeOnReply := req.closeOnReply }.doReply compress date code (ascii "OK") req

/-- `ReplyWithError`, with what the clock shows. -/
def replyWithError (r : CurrentReply) (date : CachedDate) (now : Int) (code : Int) (content : Bytes)
    (req : HttpRequest) : CurrentReply × CachedDate :=
  (({ r with closeOnReply := true }.prepare compress now req {}).out content).doReply compress date code
    content req

end

/-- What is sent: the buffers one after the other. -/
def octets (r : CurrentReply) : Bytes := r.buffers.flatten

/-! ## What is sent -/

variable {compress : Compression → Bytes → Bytes}

/-- The filter that `Prepare` sets up. -/
def encoding (req : HttpRequest) (config : HttpConfig) : Option Compression :=
  if req.acceptEncodingGzip && config.allowGzip then some .gzip
  else if req.acceptEncodingDeflate && config.allowDeflate then some .deflate
  else none

theorem reset_eq (r : CurrentReply) : r.reset compress =
    { closeOnReply := r.closeOnReply, buffers := r.buffers, now := r.now } := by
  rw [reset, resetStreamLayers]
  split_ifs with h
  · rfl
  · rw [show r.streamLayers = 0 from Nat.eq_zero_of_not_pos h]

/-- **What `Prepare` leaves of the object**: the close flag and the buffers, which every reply sets. -/
theorem prepare_eq (r : CurrentReply) (now : Int) (req : HttpRequest) (config : HttpConfig) :
    r.prepare compress now req config =
      { closeOnReply := r.closeOnReply, buffers := r.buffers, now, compressionType := encoding req config
        streamLayers := (encoding req config).elim 1 fun _ => 2 } := by
  rw [prepare, reset_eq, encoding]
  split_ifs with h h'
  · rfl
  · rfl
  · rfl

/-- The head of a reply. -/
def head (date : CachedDate) (code : Int) (msg : Bytes) (req : HttpRequest) (contentLength : ℕ)
    (compressionType : Option Compression) (closeOnReply : Bool) : Bytes :=
  req.getHttpVersionName ++ ascii " " ++ decimalInt code ++ ascii " " ++ msg ++ crlf ++ date.text ++ crlf ++
    fields contentLength compressionType closeOnReply ++ crlf

/-- **A reply that was prepared**, whatever the object was used for before. -/
theorem doReply_prepare (r : CurrentReply) (date : CachedDate) (now : Int) (config : HttpConfig)
    (text : Bytes) (code : Int) (msg : Bytes) (req : HttpRequest) (close : Bool) :
    { (r.prepare compress now req config).out text with closeOnReply := close }.doReply compress date code
        msg req =
      let body := filter compress (encoding req config) text
      let header := head (date.refresh now) code msg req body.length (encoding req config) close
      ({  header, headerStr := header, bodyStr := body, closeOnReply := close
          buffers := if req.method = .head then [header] else [header, body]
          compressionType := encoding req config, now
          bytesInReply := header.length + if req.method = .head then 0 else body.length },
        date.refresh now) := by
  have hpos : 0 < (encoding req config).elim 1 fun _ => 2 := by
    cases encoding req config with
    | none => exact Nat.one_pos
    | some _ => exact Nat.two_pos
  rw [prepare_eq]
  simp only [out, doReply, resetStreamLayers, hpos, if_true, head, List.nil_append, ne_eq, Nat.zero_add]
  by_cases h : req.method = .head
  · simp [h]
  · simp [h]

theorem replyWithError_eq_doReply (r : CurrentReply) (date : CachedDate) (now : Int) (code : Int)
    (content : Bytes) (req : HttpRequest) :
    r.replyWithError compress date now code content req =
      { (r.prepare compress now req {}).out content with closeOnReply := true }.doReply compress date code
        content req := by
  rw [replyWithError, prepare_eq, prepare_eq]
  rfl

theorem closeOnReply_doReply (r : CurrentReply) (date : CachedDate) (code : Int) (msg : Bytes)
    (req : HttpRequest) : (r.doReply compress date code msg req).1.closeOnReply = r.closeOnReply := by
  have hlayers : (r.resetStreamLayers compress).closeOnReply = r.closeOnReply := by
    unfold resetStreamLayers
    split_ifs
    · rfl
    · rfl
  unfold doReply
  by_cases h : req.method = .head
  · simpa [h] using hlayers
  · simpa [h] using hlayers

theorem closeOnReply_reply (r : CurrentReply) (date : CachedDate) (code : Int) (req : HttpRequest) :
    (r.reply compress date code req).1.closeOnReply = req.closeOnReply := closeOnReply_doReply _ _ _ _ _

theorem closeOnReply_replyWithError (r : CurrentReply) (date : CachedDate) (now : Int) (code : Int)
    (content : Bytes) (req : HttpRequest) :
    (r.replyWithError compress date now code content req).1.closeOnReply = true := by
  rw [replyWithError, closeOnReply_doReply, prepare_eq]
  rfl

/-- What is sent of a reply: its head and, unless the method is `HEAD`, its body. -/
def wire (date : CachedDate) (code : Int) (msg : Bytes) (req : HttpRequest)
    (compressionType : Option Compression) (body : Bytes) (closeOnReply : Bool) : Bytes :=
  head date code msg req body.length compressionType closeOnReply ++
    if req.method = .head then [] else body

/-- **What is sent of a reply.** -/
theorem octets_reply (r : CurrentReply) (date : CachedDate) (now : Int) (config : HttpConfig)
    (text : Bytes) (code : Int) (req : HttpRequest) :
    (((r.prepare compress now req config).out text).reply compress date code req).1.octets =
      wire (date.refresh now) code (ascii "OK") req (encoding req config)
        (filter compress (encoding req config) text) req.closeOnReply := by
  rw [reply, doReply_prepare, octets, wire]
  by_cases h : req.method = .head
  · simp [h]
  · simp [h]

/-- **What is sent of an error reply**: it is never compressed, and the connection closes after it. -/
theorem octets_replyWithError (r : CurrentReply) (date : CachedDate) (now : Int) (code : Int)
    (content : Bytes) (req : HttpRequest) :
    (r.replyWithError compress date now code content req).1.octets =
      wire (date.refresh now) code content req none content true := by
  have hnone : encoding req {} = none := by simp [encoding]
  rw [replyWithError_eq_doReply, doReply_prepare, hnone, octets, wire]
  by_cases h : req.method = .head
  · simp [h, filter]
  · simp [h, filter]

theorem date_reply (r : CurrentReply) (date : CachedDate) (now : Int) (config : HttpConfig) (text : Bytes)
    (code : Int) (req : HttpRequest) :
    (((r.prepare compress now req config).out text).reply compress date code req).2 = date.refresh now := by
  rw [reply, doReply_prepare]

theorem date_replyWithError (r : CurrentReply) (date : CachedDate) (now : Int) (code : Int)
    (content : Bytes) (req : HttpRequest) :
    (r.replyWithError compress date now code content req).2 = date.refresh now := by
  rw [replyWithError_eq_doReply, doReply_prepare]

end CurrentReply

end VUbercool.Http
