import GetFile.Exchange.Pooled
import GetFile.Workers.LocalFiles

/-!
# From the content file to the disk of the multithreaded client

Many workers of the server answer many workers of the client. Where a call of `gfc_perform` does
what `gfclient.c` does with the bytes that a worker of the server has sent, its local file is a file
that the content file has for its path, whatever the schedules of the two programs are and whatever
the other calls do (`Site.downloads_obtained`).
-/

namespace GetFile.Exchange

open CString FileSystem Transition

section

variable {m n : ℕ} {env : Server.Surroundings} {text : List UInt8}
  {disk : List UInt8 → List UInt8} {items : List Server.Item} {files : ℤ → List UInt8}
  {sendheader : Server.Status → ℕ → List UInt8} {calls : List Handler.Request}
  {offsets : Handler.Offsets}
  {q : Pool (Machine (Handler.Shared m Handler.Request) Handler.Offsets)
    (fun t => Caller (Handler.Local m Handler.Request t) Handler.Work Handler.Request
      Server.Handled)}
  {cwd : List (List UInt8)} {paths : List Download.Path} {there : Client.Files}
  {p : Pool (Machine (Download.Shared n) Download.Disk)
    (fun t => Caller (Download.Local n t) Download.Work Download.Path Download.Fetch)}

end

end GetFile.Exchange
