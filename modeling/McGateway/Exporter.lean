import McGateway.ByteStrings

/-! # The metrics endpoint (`serve_one_until` of `metrics.rs`)

One connection of the exporter: the request is read into a buffer of 4096 bytes until the end of
its headers, the buffer is full or the client closes, and the request line chooses the response.
Deadlines and I/O errors are left out; `encoded` is the text of the metrics at that moment.

How much is read depends on where the reads end, the response does not (`serve_one_fragmentation`).
What is read is always an initial part of the first 4096 bytes sent, and it is a proper part only
if it holds an empty line, which lies behind the first line end (`readRequest_spec`). -/

namespace McGateway.Exporter

open Bytes (ascii hasPrefix split windows)

/-! ### The request -/

/-- What one read finds. -/
structure Piece where
  bytes : Bytes
  nonempty : bytes ≠ []

/-- What the client sends, up to the end of the stream. -/
def stream (conn : List Piece) : Bytes := conn.flatMap Piece.bytes

def bufferSize : ℕ := 4096

def crlf : Bytes := [13, 10]

def crlfCrlf : Bytes := [13, 10, 13, 10]

/-- The read loop, from a buffer that holds `buf`, with the number of reads. -/
def readFrom : List Piece → Bytes → ℕ → Bytes × ℕ
  | [], buf, reads => if buf.length = bufferSize then (buf, reads) else (buf, reads + 1)
  | piece :: conn, buf, reads =>
      if buf.length = bufferSize then (buf, reads)
      else
        -- a read takes what fits; it leaves something behind only if it fills the buffer
        let buf := buf ++ piece.bytes.take (bufferSize - buf.length)
        if (windows 4 buf).any (· == crlfCrlf) then (buf, reads + 1)
        else readFrom conn buf (reads + 1)

def readRequest (conn : List Piece) : Bytes × ℕ := readFrom conn [] 0

/-- The request up to its first line end. -/
def requestLine (request : Bytes) : Bytes :=
  request.take (((windows 2 request).findIdx? (· == crlf)).getD request.length)

/-! ### The response -/

structure Response where
  status : Bytes
  contentType : Bytes
  body : Bytes
deriving DecidableEq, Repr

/-- The choice by method and path. -/
def respond (encoded method path : Bytes) : Response :=
  if method ≠ ascii "GET" then
    ⟨ascii "405 Method Not Allowed", ascii "text/plain; charset=utf-8", ascii "method not allowed\n"⟩
  else if path = ascii "/metrics" ∨ hasPrefix path (ascii "/metrics?") then
    ⟨ascii "200 OK", ascii "application/openmetrics-text; version=1.0.0; charset=utf-8", encoded⟩
  else
    ⟨ascii "404 Not Found", ascii "text/plain; charset=utf-8", ascii "not found; metrics are at /metrics\n"⟩

/-- The choice by request line: its first two tokens count. -/
def respondTo (encoded line : Bytes) : Response :=
  let parts := split 32 line
  respond encoded (parts[0]?.getD []) (parts[1]?.getD [])

def Response.text (res : Response) : Bytes :=
  ascii "HTTP/1.1 " ++ res.status ++ ascii "\r\nContent-Type: " ++ res.contentType ++
    ascii "\r\nContent-Length: " ++ ascii (toString res.body.length) ++
    ascii "\r\nConnection: close\r\n\r\n" ++ res.body

/-- `serve_one_until`: what is sent back. -/
def serveOneUntil (encoded : Bytes) (conn : List Piece) : Bytes :=
  (respondTo encoded (requestLine (readRequest conn).1)).text

/-! ### Reading -/

/-- What the loop has read of a string: all that fits the buffer, or a part with an empty line. -/
structure ReadOf (s buf : Bytes) : Prop where
  isPrefix : buf <+: s.take bufferSize
  stops : buf = s.take bufferSize ∨ crlfCrlf <:+: buf

theorem ReadOf.length_le {s buf : Bytes} (h : ReadOf s buf) : buf.length ≤ bufferSize := by
  have hle := h.isPrefix.length_le
  rw [List.length_take] at hle
  omega

theorem readOf_full {buf s : Bytes} (h : buf.length = bufferSize) : ReadOf (buf ++ s) buf := by
  have htake : (buf ++ s).take bufferSize = buf := by rw [← h, List.take_left]
  exact ⟨by rw [htake], .inl htake.symm⟩

/-- One read: the buffer and what follows it are as before, as far as they fit. -/
theorem take_append_received (buf piece s : Bytes) :
    (buf ++ piece.take (bufferSize - buf.length) ++ s).take bufferSize =
      (buf ++ (piece ++ s)).take bufferSize := by
  have hsplit : (buf ++ (piece ++ s)).take bufferSize =
      buf.take bufferSize ++ (piece ++ s).take (bufferSize - buf.length) := List.take_append
  rw [List.append_assoc, List.take_append, hsplit]
  congr 1
  by_cases hle : piece.length ≤ bufferSize - buf.length
  · rw [List.take_of_length_le hle]
  · have hlen : (piece.take (bufferSize - buf.length)).length = bufferSize - buf.length := by
      rw [List.length_take]
      omega
    rw [List.take_append_of_le_length hlen.ge, List.take_append_of_le_length (by omega), List.take_take, min_self]

/-- The loop stops with a part of what is sent, and every read but the last brings a byte. -/
theorem readFrom_spec : ∀ (conn : List Piece) (buf : Bytes) (reads : ℕ), buf.length ≤ bufferSize →
    ReadOf (buf ++ stream conn) (readFrom conn buf reads).1 ∧
      (readFrom conn buf reads).2 + buf.length ≤ reads + (readFrom conn buf reads).1.length + 1
  | [], buf, reads, hbuf => by
      rw [readFrom]
      by_cases hfull : buf.length = bufferSize
      · rw [if_pos hfull]
        exact ⟨readOf_full hfull, by simp only; omega⟩
      · have htake : (buf ++ stream []).take bufferSize = buf := by
          rw [stream, List.flatMap_nil, List.append_nil, List.take_of_length_le hbuf]
        rw [if_neg hfull]
        exact ⟨⟨by rw [htake], .inl htake.symm⟩, by simp only; omega⟩
  | piece :: conn, buf, reads, hbuf => by
      rw [readFrom]
      by_cases hfull : buf.length = bufferSize
      · rw [if_pos hfull]
        exact ⟨readOf_full hfull, by simp only; omega⟩
      rw [if_neg hfull]
      have hpos : 0 < piece.bytes.length := List.length_pos_iff.mpr piece.nonempty
      have hstream : stream (piece :: conn) = piece.bytes ++ stream conn := List.flatMap_cons
      have htake := take_append_received buf piece.bytes (stream conn)
      have hgrown : (buf ++ piece.bytes.take (bufferSize - buf.length)).length =
          buf.length + min (bufferSize - buf.length) piece.bytes.length := by
        rw [List.length_append, List.length_take]
      rw [← hstream] at htake
      simp only
      generalize buf ++ piece.bytes.take (bufferSize - buf.length) = grown at htake hgrown ⊢
      split_ifs with hstop
      · refine ⟨⟨?_, .inr ((Bytes.any_windows (w := crlfCrlf) (by decide)).mp hstop)⟩, by simp only; omega⟩
        rw [← htake, List.take_append, List.take_of_length_le (by omega)]
        exact List.prefix_append _ _
      · obtain ⟨⟨hpre, hstops⟩, hreads⟩ := readFrom_spec conn grown (reads + 1) (by omega)
        rw [htake] at hpre hstops
        exact ⟨⟨hpre, hstops⟩, by omega⟩

theorem readRequest_spec (conn : List Piece) :
    ReadOf (stream conn) (readRequest conn).1 ∧ (readRequest conn).2 ≤ (readRequest conn).1.length + 1 := by
  obtain ⟨hread, hcount⟩ := readFrom_spec conn [] 0 (by simp)
  refine ⟨hread, ?_⟩
  rw [List.length_nil] at hcount
  unfold readRequest
  omega

/-! ### The request line -/

/-- The line before the first line end, or everything if there is none. -/
def FirstLine (s line : Bytes) : Prop :=
  ((∃ r, s = line ++ crlf ++ r) ∧ ¬crlf <:+: line ++ [13]) ∨ (line = s ∧ ¬crlf <:+: s)

theorem firstLine_requestLine (s : Bytes) : FirstLine s (requestLine s) := by
  unfold requestLine
  cases hfind : (windows 2 s).findIdx? (· == crlf) with
  | none =>
      rw [Option.getD_none, List.take_length]
      exact .inr ⟨rfl, (Bytes.findIdx?_windows_eq_none (w := crlf) (by decide)).mp hfind⟩
  | some i => exact .inl (Bytes.of_findIdx?_windows (w := crlf) (by decide) hfind)

/-- A part that holds a line end has the first line of the whole. -/
theorem requestLine_append {buf : Bytes} (r : Bytes) (h : crlf <:+: buf) :
    requestLine (buf ++ r) = requestLine buf := by
  unfold requestLine
  cases hfind : (windows 2 buf).findIdx? (· == crlf) with
  | none => exact absurd h ((Bytes.findIdx?_windows_eq_none (w := crlf) (by decide)).mp hfind)
  | some i =>
      have hfind' := (Bytes.windows_prefix_append 2 r buf).findIdx?_eq_some hfind
      obtain ⟨⟨q, hq⟩, -⟩ := Bytes.of_findIdx?_windows (w := crlf) (by decide) hfind
      have hle : i ≤ buf.length := by
        by_contra hlt
        rw [List.take_of_length_le (by omega)] at hq
        have hlen := congrArg List.length hq
        simp [crlf] at hlen
      rw [hfind', Option.getD_some, Option.getD_some, List.take_append_of_le_length hle]

theorem ReadOf.requestLine_eq {s buf : Bytes} (h : ReadOf s buf) :
    requestLine buf = requestLine (s.take bufferSize) := by
  obtain hall | hempty := h.stops
  · rw [← hall]
  · obtain ⟨r, hr⟩ := h.isPrefix
    have hline : crlf <:+: buf := List.IsInfix.trans ⟨[], crlf, rfl⟩ hempty
    rw [← hr, requestLine_append r hline]

/-! ### The response, byte by byte -/

def methodNotAllowed : Bytes :=
  ascii "HTTP/1.1 405 Method Not Allowed\r\nContent-Type: text/plain; charset=utf-8\r\nContent-Length: 19\r\nConnection: close\r\n\r\nmethod not allowed\n"

def notFound : Bytes :=
  ascii "HTTP/1.1 404 Not Found\r\nContent-Type: text/plain; charset=utf-8\r\nContent-Length: 35\r\nConnection: close\r\n\r\nnot found; metrics are at /metrics\n"

def metricsPage (encoded : Bytes) : Bytes :=
  ascii "HTTP/1.1 200 OK\r\nContent-Type: application/openmetrics-text; version=1.0.0; charset=utf-8\r\nContent-Length: " ++
    ascii (toString encoded.length) ++ ascii "\r\nConnection: close\r\n\r\n" ++ encoded

/-- The path of the metrics, with or without a query. -/
def MetricsPath (path : Bytes) : Prop := path = ascii "/metrics" ∨ ascii "/metrics?" <+: path

theorem respond_text (encoded method path : Bytes) :
    (method ≠ ascii "GET" → (respond encoded method path).text = methodNotAllowed) ∧
    (method = ascii "GET" → MetricsPath path → (respond encoded method path).text = metricsPage encoded) ∧
    (method = ascii "GET" → ¬MetricsPath path → (respond encoded method path).text = notFound) := by
  have hpath : MetricsPath path ↔ path = ascii "/metrics" ∨ hasPrefix path (ascii "/metrics?") = true :=
    or_congr_right List.isPrefixOf_iff_prefix.symm
  rw [hpath]
  unfold respond
  refine ⟨fun hmethod => ?_, fun hmethod hmetrics => ?_, fun hmethod hother => ?_⟩
  · rw [if_pos hmethod]
    decide +kernel
  · have hhead : ascii "HTTP/1.1 " ++ ascii "200 OK" ++ ascii "\r\nContent-Type: " ++
        ascii "application/openmetrics-text; version=1.0.0; charset=utf-8" ++ ascii "\r\nContent-Length: " =
        ascii "HTTP/1.1 200 OK\r\nContent-Type: application/openmetrics-text; version=1.0.0; charset=utf-8\r\nContent-Length: " := by
      decide +kernel
    rw [if_neg (not_not.mpr hmethod), if_pos hmetrics, Response.text, hhead, metricsPage]
  · rw [if_neg (not_not.mpr hmethod), if_neg hother]
    decide +kernel

/-- The exporter reads at most 4096 bytes, in at most one read more than there are bytes.  What it
sends back is chosen by the first two tokens of the first line of the first 4096 bytes sent, however
the client's bytes are cut into reads: 405 unless the first is `GET`, then 200 with the metrics if the
second is `/metrics`, with or without a query, and 404 otherwise. -/
theorem serve_one_fragmentation (encoded : Bytes) (conn : List Piece) :
    (readRequest conn).1.length ≤ 4096 ∧ (readRequest conn).2 ≤ 4097 ∧
    (∃ line method path, FirstLine ((stream conn).take 4096) line ∧
      method = (split 32 line)[0]?.getD [] ∧ path = (split 32 line)[1]?.getD [] ∧
      (method ≠ ascii "GET" → serveOneUntil encoded conn = methodNotAllowed) ∧
      (method = ascii "GET" → MetricsPath path → serveOneUntil encoded conn = metricsPage encoded) ∧
      (method = ascii "GET" → ¬MetricsPath path → serveOneUntil encoded conn = notFound)) ∧
    ∀ conn', (stream conn').take 4096 = (stream conn).take 4096 →
      serveOneUntil encoded conn' = serveOneUntil encoded conn := by
  have hserve : ∀ c, serveOneUntil encoded c =
      (respondTo encoded (requestLine ((stream c).take bufferSize))).text := by
    intro c
    unfold serveOneUntil
    rw [(readRequest_spec c).1.requestLine_eq]
  obtain ⟨hread, hcount⟩ := readRequest_spec conn
  have hlen := hread.length_le
  have hsize : bufferSize = 4096 := rfl
  refine ⟨by omega, by omega, ?_, ?_⟩
  · rw [hserve conn]
    exact ⟨_, _, _, firstLine_requestLine _, rfl, rfl, respond_text encoded _ _⟩
  · intro conn' hsame
    rw [hserve, hserve, hsize, hsame]

end McGateway.Exporter
