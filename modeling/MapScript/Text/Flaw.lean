import MapScript.Text.Quoted
import MapScript.Text.Utf8

/-! Where bytes stop being text. -/

namespace MapScript.Utf8

/-- Why bytes are no text: a byte that starts no character, or a character that does not go on or that the
end cuts off. A broken piece comes after `offset` other bytes. -/
inductive Flaw where
  | start (offset : Nat) (byte : UInt8)
  | broken (offset : Nat) (bytes : Bytes)
  | cutOff (bytes : Bytes)
deriving DecidableEq, Repr

def firstFlaw? (offset : Nat) : List Piece → Option Flaw
  | [] => none
  | .char c :: rest => firstFlaw? (offset + c.utf8Size) rest
  | .broken bytes :: rest =>
    match bytes.map lead, bytes, rest with
    | .whole _ :: _, b :: _, _ => some (.start offset b)
    | _, _, [] => some (.cutOff bytes)
    | _, _, _ => some (.broken offset bytes)

def flaw? (bytes : Bytes) : Option Flaw := firstFlaw? 0 (pieces none bytes)

def bytesText (offset : Nat) : Bytes → Text
  | [b] => "byte 0x" ++ Text.hex 2 b.toNat ++ " in position " ++ Text.ofNat offset
  | bytes =>
    "bytes in position " ++ Text.ofNat offset ++ "-" ++ Text.ofNat (offset + bytes.length - 1)

def Flaw.message : Flaw → Text
  | .start offset b => "'utf-8' codec can't decode " ++ bytesText offset [b] ++ ": invalid start byte"
  | .broken offset bytes =>
    "'utf-8' codec can't decode " ++ bytesText offset bytes ++ ": invalid continuation byte"
  | .cutOff bytes => "'utf-8' codec can't decode " ++ bytesText 0 bytes ++ ": unexpected end of data"

end MapScript.Utf8
