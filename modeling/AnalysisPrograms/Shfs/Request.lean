import AnalysisPrograms.Shfs.Client

namespace AnalysisPrograms.Shfs

open Foundations FiniteMap Bytes

def PATH_MAX : ℕ := 4096

def INDEX_FILE : List UInt8 := text "index.html"

def RM_HTTP_GET : ℤ := 0x124F4

def HTML32DOCTYPE : String := "<!DOCTYPE html>\r\n"

def HTTP403CONTENT : List UInt8 :=
  text (HTML32DOCTYPE ++ "<head>\r\n" ++
    "    <title>\r\n" ++ "        exception\r\n" ++ "    </title>\r\n" ++
    "</head>\r\n" ++ "<body>\r\n" ++
    "    <p>\r\n" ++ "        error code 403.\r\n" ++ "    </p>\r\n" ++
    "    <p>\r\n" ++ "        message: not authorization.\r\n" ++ "    </p>\r\n" ++ "</body>\r\n")

def HTTP404CONTENT : List UInt8 :=
  text (HTML32DOCTYPE ++ "<head>\r\n" ++
    "    <title>\r\n" ++ "        exception\r\n" ++ "    </title>\r\n" ++
    "</head>\r\n" ++ "<body>\r\n" ++
    "    <p>\r\n" ++ "        error code 404.\r\n" ++ "    </p>\r\n" ++
    "    <p>\r\n" ++ "        message: file not found.\r\n" ++ "    </p>\r\n" ++ "</body>\r\n")

/-- The first index from `i` on whose byte stops the loop; `none` is a read behind the block. -/
def scan (stop : UInt8 → Bool) (data : ℕ → UInt8) : ℕ → ℕ → Option ℕ
  | 0, _ => none
  | room + 1, i => if stop (data i) then some i else scan stop data room (i + 1)

def isDigit (b : UInt8) : Bool := !(decide (charValue b < 48) || decide (charValue b > 57))

/-- The request line and its method: the length of the line, or `none` for the return of -1. -/
def parseMethod (data : ℕ → UInt8) (capacity : ℕ) (requ : HttpRequ) :
    Option (Option (ℕ × HttpRequ)) := do
  let lineLen ← scan (fun b => b = 0 || b = CR) data capacity 0
  if lineLen = 0 then some none
  else
    let itemLen ← scan (fun b => b = CR || b = 0 || b = SPACE) data capacity 0
    let requMethod ← strHash (slice data 0 itemLen)
    if requMethod ≠ RM_HTTP_GET then some none
    else some (some (lineLen, { requ with mRequMethod := RM_HTTP_GET }))

def itemStart (data : ℕ → UInt8) (capacity : ℕ) : Option ℕ := do
  let slash ← scan (fun b => b = CR || b = SLASH) data capacity 0
  some (if data slash = SLASH then slash else 0)

def parseFile (data : ℕ → UInt8) (capacity : ℕ) : Option (Option (ℕ × ℕ)) := do
  let item ← itemStart data capacity
  if data item ≠ SLASH then some none
  else
    let stop ← scan (fun b => b = CR || b = SPACE) data (capacity - item) item
    if stop - item < 1 || stop - item > 128 then some none else some (some (item, stop - item))

/-- The offset behind `bytes` in a line with a range: `some none` is an illegal request. -/
def parseOffset (srv : Server) (data : ℕ → UInt8) (lineLen capacity : ℕ) : Option (Option ℤ) := do
  let rangeB ← findStringKmp data lineLen srv.bytes.view 5
  if rangeB < 0 then some none
  else
    let offset ← scan (fun b => isDigit b || b = 0) data (capacity - rangeB.toNat) rangeB.toNat
    if data offset = 0 then some none
    else
      let stop ← scan (fun b => b ≠ 0) data (capacity - offset) offset
      some (some (strToOffset (slice data offset (stop - offset))))

def parseRange (srv : Server) (data : ℕ → UInt8) (lineLen capacity : ℕ) : Option (Option ℤ) := do
  let rangeB ← findStringKmp data lineLen srv.upperRange.view 5
  let rangeB ← if rangeB = -1 then findStringKmp data lineLen srv.lowerRange.view 5 else some rangeB
  if rangeB ≥ 0 then parseOffset srv data lineLen capacity else some (some 0)

/-- `handle_http_requ` up to the construction of the path: an item, or no item where it returns
-1. -/
def parseRequ (srv : Server) (clt : Client) : Option (Client × Option (List UInt8)) := do
  let data ← clt.mRecvBuf.mpData
  let capacity := clt.mRecvBuf.mCapacity.toNat
  match ← parseMethod data capacity clt.mRequ with
  | none => some (clt, none)
  | some (lineLen, requ) =>
    match ← parseFile data capacity with
    | none => some ({ clt with mRequ := requ }, none)
    | some (item, itemLen) =>
      match ← parseRange srv data lineLen capacity with
      | none => some ({ clt with mRequ := { requ with mRangeB := 0 } }, none)
      | some rangeB =>
        some ({ clt with mRequ := { requ with mRangeB := rangeB } }, some (slice data item itemLen))

def filetypeLoop (path : List UInt8) : ℕ → ℕ
  | 0 => 0
  | p + 1 => if path[p + 1]? = some DOT then p + 2 else filetypeLoop path p

def mimeOf (filetype : List UInt8) : String :=
  if filetype = text "html" then "text/html"
  else if filetype = text "ico" then "image/x-icon"
  else if filetype = text "png" then "image/png"
  else if filetype = text "jpg" then "image/jpeg"
  else if filetype = text "jpeg" then "image/jpeg"
  else if filetype = text "txt" then "text/plain"
  else if filetype = text "mp3" then "audio/mpeg"
  else if filetype = text "flv" then "video/flv"
  else if filetype = text "mp4" then "video/mp4"
  else if filetype = text "avi" then "video/avi"
  else if filetype = text "rmvb" then "video/rmvb"
  else if filetype = text "mkv" then "video/mkv"
  else "application/octet-stream"

def failResp (status : RespStatus) (content : List UInt8) (resp : HttpResp) : HttpResp :=
  { resp with
    mFile := ⟨-1, content.length⟩
    mRespStatus := some status
    mpcMime := "text/html"
    mSentSize := 0
    mTotalSize := 0 }

def servedPath (filepath : List UInt8) (isDir : Bool) : List UInt8 :=
  if isDir then filepath ++ [SLASH] ++ INDEX_FILE else filepath

/-- The path passed to `open`, or `some none` where `realpath` finds nothing. -/
def openPath (srv : Server) (item : List UInt8) : Option (Option (List UInt8)) := do
  guard (srv.pathRoot.length + item.length < PATH_MAX)
  match srv.fs.realpath ((srv.pathRoot ++ item).takeWhile (· ≠ 0)) with
  | none => some none
  | some filepath =>
    guard (filepath.getLast? ≠ some SLASH)
    let isDir ← srv.fs.statIsDir filepath
    guard ((servedPath filepath isDir).length < PATH_MAX)
    some (some (servedPath filepath isDir))

def respondFile (os : Os) (srv : Server) (k : Kernel) (clt : Client) (item : List UInt8)
    (canOpen : Bool) : Option (ℤ × Kernel × Client) := do
  match ← openPath srv item with
  | none => some (0, k, { clt with mResp := failResp .rsHttp404 HTTP404CONTENT clt.mResp })
  | some filepath =>
    let filetype := filepath.drop (filetypeLoop filepath (filepath.length - 1))
    match if canOpen then srv.fs.contents filepath else none with
    | none => some (0, k, { clt with mResp := failResp .rsHttp403 HTTP403CONTENT clt.mResp })
    | some contents =>
      let (rdfd, k) := k.newFd os (.file contents.bytes 0)
      guard (rdfd ≠ 0)
      some (0, k, { clt with mResp :=
        { mRespStatus := some .rsHttp200
          mFile := ⟨rdfd, contents.bytes.length⟩
          mpcMime := mimeOf filetype
          mRangeB := clt.mRequ.mRangeB
          mSentSize := 0
          mTotalSize := 0 } })

def handleHttpRequ (os : Os) (srv : Server) (k : Kernel) (clt : Client) (canOpen : Bool) :
    Option (ℤ × Kernel × Client) := do
  match ← parseRequ srv clt with
  | (clt, none) => some (-1, k, clt)
  | (clt, some item) => respondFile os srv k clt item canOpen

end AnalysisPrograms.Shfs
