import ThreeXhaust.Lib.Json.Value

/-!
# Image payloads of a request

`image-payload.ts`: the images a request carries are checked when it is stored and again
whenever its row is read back.
-/

namespace ThreeXhaust.Tui

open Json

inductive ImageMimeType where
  | png
  | jpeg
  | webp
deriving DecidableEq

def ImageMimeType.text : ImageMimeType → String
  | .png => "image/png"
  | .jpeg => "image/jpeg"
  | .webp => "image/webp"

def ImageMimeType.ofText (s : String) : Option ImageMimeType :=
  if s = "image/png" then some .png
  else if s = "image/jpeg" then some .jpeg
  else if s = "image/webp" then some .webp
  else none

structure TuiRequestImage where
  data : String
  mimeType : ImageMimeType
deriving DecidableEq

def TuiRequestImage.toValue (image : TuiRequestImage) : Value :=
  .obj [("data", .str image.data), ("mimeType", .str image.mimeType.text)]

def maxTuiImages : Nat := 8
def maxTuiImageBase64Bytes : Nat := 5 * 1024 * 1024

/-! ## Base64 -/

def base64Value (c : Char) : Option Nat :=
  if 'A' ≤ c ∧ c ≤ 'Z' then some (c.toNat - 65)
  else if 'a' ≤ c ∧ c ≤ 'z' then some (c.toNat - 71)
  else if '0' ≤ c ∧ c ≤ '9' then some (c.toNat + 4)
  else if c = '+' then some 62
  else if c = '/' then some 63
  else none

/-- The bytes of canonical base64 text: groups of four, padding only in the last group, and
no stray bits before the padding. `none` is text the round trip through `Buffer` changes. -/
def decodeBase64 : List Char → Option (List Nat)
  | [] => some []
  | [a, b, '=', '='] => do
    let x ← base64Value a
    let y ← base64Value b
    if y % 16 = 0 then some [x * 4 + y / 16] else none
  | a :: b :: c :: d :: rest =>
    if d = '=' ∧ rest = [] then do
      let x ← base64Value a
      let y ← base64Value b
      let z ← base64Value c
      if z % 4 = 0 then some [x * 4 + y / 16, y % 16 * 16 + z / 4] else none
    else do
      let x ← base64Value a
      let y ← base64Value b
      let z ← base64Value c
      let w ← base64Value d
      let bytes ← decodeBase64 rest
      some ((x * 4 + y / 16) :: (y % 16 * 16 + z / 4) :: (z % 4 * 64 + w) :: bytes)
  | _ => none

def hasSignature (mimeType : ImageMimeType) (bytes : List Nat) : Bool :=
  match mimeType with
  | .png => bytes.take 8 == [0x89, 0x50, 0x4e, 0x47, 0x0d, 0x0a, 0x1a, 0x0a]
  | .jpeg => bytes.take 3 == [0xff, 0xd8, 0xff]
  | .webp => bytes.take 4 == [0x52, 0x49, 0x46, 0x46] && (bytes.drop 8).take 4 == [0x57, 0x45, 0x42, 0x50]

/-! ## Checks -/

def parseImage (candidate : Value) : Except String TuiRequestImage :=
  match candidate with
  | .obj _ | .arr _ =>
    match candidate.get "data" with
    | .str data =>
      if data = "" then .error "TUI request image data is required"
      else
        match candidate.get "mimeType" with
        | .str mime =>
          match ImageMimeType.ofText mime with
          | none => .error "TUI request image MIME type is invalid"
          | some mimeType =>
            if data.utf8ByteSize > maxTuiImageBase64Bytes then
              .error "TUI request image exceeds the encoded size limit"
            else
              match decodeBase64 data.toList with
              | none => .error "TUI request image data is not canonical base64"
              | some bytes =>
                if hasSignature mimeType bytes then .ok ⟨data, mimeType⟩
                else .error s!"TUI request {mimeType.text} signature is invalid"
        | _ => .error "TUI request image MIME type is invalid"
    | _ => .error "TUI request image data is required"
  | _ => .error "TUI request image is invalid"

def parseImagePayloads (value : Value) : Except String (List TuiRequestImage) :=
  match value with
  | .arr items =>
    if items.length > maxTuiImages then .error "TUI requests support at most 8 images"
    else items.mapM parseImage
  | _ => .error "TUI request images must be an array"

def imagesValue (images : List TuiRequestImage) : Value := .arr (images.map (·.toValue))

end ThreeXhaust.Tui
