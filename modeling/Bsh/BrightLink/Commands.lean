import Bsh.BrightLink.Spec

/-!
# Commands and error texts

The command names that the bridge dispatches on and the error texts of `spec/ebp1.ts` that the
modelled handlers use.
-/

namespace Bsh.BrightLink

open Bsh.Library Utf

/-- `EBP1_COMMANDS` and `LINK_COMMANDS`. -/
inductive Command where
  | heartbeat
  | version
  | info
  | status
  | metrics
  | getPublicKey
  | getEnclavePublicKey
  | setPeerPublicKey
  | listKeys
  | enclaveSign
  | enclaveDecrypt
  | enclaveGenerateKey
  | enclaveRotateKey
  | enableTotp
  | exportKey
  | linkRegister
  | linkDeliver
  | linkPush
  | linkGeoStatus
  | linkGeoProximity
  | linkGeoZone
  | linkGeoGet
  | linkGeoRefresh
  | linkAuditEmit
  deriving DecidableEq, Repr

def Command.text : Command → JsString
  | .heartbeat => js "HEARTBEAT"
  | .version => js "VERSION"
  | .info => js "INFO"
  | .status => js "STATUS"
  | .metrics => js "METRICS"
  | .getPublicKey => js "GET_PUBLIC_KEY"
  | .getEnclavePublicKey => js "GET_ENCLAVE_PUBLIC_KEY"
  | .setPeerPublicKey => js "SET_PEER_PUBLIC_KEY"
  | .listKeys => js "LIST_KEYS"
  | .enclaveSign => js "ENCLAVE_SIGN"
  | .enclaveDecrypt => js "ENCLAVE_DECRYPT"
  | .enclaveGenerateKey => js "ENCLAVE_GENERATE_KEY"
  | .enclaveRotateKey => js "ENCLAVE_ROTATE_KEY"
  | .enableTotp => js "ENABLE_TOTP"
  | .exportKey => js "EXPORT_KEY"
  | .linkRegister => js "LINK_REGISTER"
  | .linkDeliver => js "LINK_DELIVER"
  | .linkPush => js "LINK_PUSH"
  | .linkGeoStatus => js "LINK_GEO_STATUS"
  | .linkGeoProximity => js "LINK_GEO_PROXIMITY"
  | .linkGeoZone => js "LINK_GEO_ZONE"
  | .linkGeoGet => js "LINK_GEO_GET"
  | .linkGeoRefresh => js "LINK_GEO_REFRESH"
  | .linkAuditEmit => js "LINK_AUDIT_EMIT"

/-- All commands, in the order of the dispatch. -/
def commands : List Command :=
  [.heartbeat, .version, .info, .status, .metrics, .getPublicKey, .getEnclavePublicKey,
    .setPeerPublicKey, .listKeys, .enclaveSign, .enclaveDecrypt, .enclaveGenerateKey,
    .enclaveRotateKey, .enableTotp, .exportKey, .linkRegister, .linkDeliver, .linkPush,
    .linkGeoStatus, .linkGeoProximity, .linkGeoZone, .linkGeoGet, .linkGeoRefresh, .linkAuditEmit]

/-- The command with a given name. -/
def commandOf (cmd : JsString) : Option Command := commands.find? (·.text = cmd)

/-! ## `EBP1_ERRORS` -/

def invalidRequestFormat : JsString := js "Invalid request format"
def unknownCommandPrefix : JsString := js "Unknown command: "
def missingOrInvalidPublicKey : JsString := js "Missing or invalid publicKey"
def missingOrInvalidDataToSign : JsString := js "Missing or invalid data to sign"
def missingOrInvalidDataToDecrypt : JsString := js "Missing or invalid data to decrypt"
def encryptedDataTooShort : JsString := js "Encrypted data too short"
def invalidEphemeralPublicKeyFormat : JsString := js "Invalid ephemeral public key format"
def missingLengthField : JsString := js "Missing length field"
def ciphertextLengthMismatch : JsString := js "Ciphertext length mismatch"
def ecdhFailedEmptySharedSecret : JsString := js "ECDH failed: empty shared secret"
def decryptionFailed : JsString := js "Decryption failed"
def enclaveGenerateKeyNotImplemented : JsString := js "ENCLAVE_GENERATE_KEY not implemented"
def enclaveRotateKeyNotSupported : JsString :=
  js "ENCLAVE_ROTATE_KEY not supported on this platform"
def failedToEnableTotp : JsString := js "Failed to enable TOTP for key"
def missingKeyid : JsString := js "Missing keyId"
def unknownKeyid : JsString := js "Unknown keyId"

/-- `LINK_ERROR_NOT_IMPLEMENTED_SUFFIX`. -/
def linkErrorNotImplementedSuffix : JsString := js " not implemented in this build"

end Bsh.BrightLink
