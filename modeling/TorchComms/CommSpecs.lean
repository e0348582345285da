/-! # Result codes shared by the communication components -/
namespace TorchComms

/-- `commResult_t`. -/
inductive CommResult where
  | commSuccess
  | commUnhandledCudaError
  | commSystemError
  | commInternalError
  | commInvalidArgument
  | commInvalidUsage
  | commRemoteError
  | commInProgress
deriving DecidableEq, Repr

end TorchComms
