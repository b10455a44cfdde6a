import StarkOne.LogRotation
import StarkOne.RotatingLog
import StarkOne.Utf8
import StarkOne.Utf8Copy
import StarkOne.NdefRecords
import StarkOne.NdefDescribe
import StarkOne.LogFiles
import StarkOne.LogSize
import StarkOne.LogContents
import StarkOne.LogPipeline
import StarkOne.Machine
import StarkOne.OneShot
import StarkOne.Buzzer
import StarkOne.Raster
import StarkOne.Merging
import StarkOne.RingQueue
import StarkOne.WholeLines
import StarkOne.LogCapture
import StarkOne.StarkErr
import StarkOne.EventCore
import StarkOne.DisplayBands
import StarkOne.Rotation
import StarkOne.DisplayRender
import StarkOne.UiFrames
import StarkOne.MenuScreen
import StarkOne.MenuFrames
import StarkOne.OverwritingRing
import StarkOne.IrCapture
import StarkOne.Mirror
import StarkOne.SettingsApply
import StarkOne.SettingsApp
import StarkOne.Launcher
import StarkOne.DialogPicture
import StarkOne.EventBus
import StarkOne.EventDelivery
import StarkOne.EventWait
import StarkOne.Link
import StarkOne.NfcType2
import StarkOne.Pn532
import StarkOne.NfcReader
import StarkOne.NfcWriter
import StarkOne.Type2Tag
import StarkOne.NfcRoundTrip
import StarkOne.NfcWriteSafety
import StarkOne.NfcPollMachine
import StarkOne.NfcPollTraces
import StarkOne.NfcDumping
import StarkOne.NfcTlvSearch
import StarkOne.NfcSnapshot
import StarkOne.NfcDumpPages
import StarkOne.TextLines
import StarkOne.NfcTask
import StarkOne.NfcTaskSteps
import StarkOne.NfcSession
import StarkOne.NfcRecovery
import StarkOne.UiStack
import StarkOne.KeyInput
import StarkOne.KeySteps
import StarkOne.KeyChord
import StarkOne.KeyClock
import StarkOne.KeyTraces
import StarkOne.CircularSearch
import StarkOne.MenuModel
import StarkOne.MenuRounds
import StarkOne.TextWrap
import StarkOne.AsciiWrap
import StarkOne.ModuleReads
import StarkOne.UiCalls
import StarkOne.DialogAnswers
import StarkOne.AppBracket
import StarkOne.AppFaults
import StarkOne.StopCurrent
import StarkOne.UiShape
import StarkOne.NfcView
import StarkOne.NfcOffer
import StarkOne.NfcSave
import StarkOne.NfcBusy
import StarkOne.NfcService
import StarkOne.NfcConfirmed
import StarkOne.StoragePath
import StarkOne.TemporaryNames
import StarkOne.Gfx
import StarkOne.UiDamage
import StarkOne.GfxText
import StarkOne.InodeDisk
import StarkOne.StorageIo
import StarkOne.StorageFile
import StarkOne.StorageKept
import StarkOne.StorageWriting
import StarkOne.StorageAtomic
import StarkOne.StorageWriters
import StarkOne.IrCodec
import StarkOne.IrRaw
import StarkOne.IrTxGuard
import StarkOne.IrNames
import StarkOne.IrWork
import StarkOne.IrApp
import StarkOne.IrSteps
import StarkOne.IrConfirm
import StarkOne.IrSave
import StarkOne.RunLength
import StarkOne.IrEncode
import StarkOne.IrPulses
import StarkOne.IrBiphase
import StarkOne.IrJitter
import StarkOne.IrScale
import StarkOne.ModuleFormat
import StarkOne.ShiftRegister
import StarkOne.CrcDetection
import StarkOne.Grouping
import StarkOne.AppCatalog
import StarkOne.ModuleBus
import StarkOne.ModuleLeases
import StarkOne.ModuleConflicts
import StarkOne.ModuleTick
import StarkOne.WriteBack
import StarkOne.Settings
import StarkOne.Pn532Frame
import StarkOne.RunningCheck
import StarkOne.Pn532Detection
import StarkOne.Pn532Bus
import StarkOne.Pn532Command
import StarkOne.StorageCore
import StarkOne.StorageLog
import StarkOne.StorageMount
import StarkOne.StorageRequests
import StarkOne.Descriptors
import StarkOne.StorageHandles
import StarkOne.IrTransmit
import StarkOne.BufferReader
import StarkOne.Ndef
import StarkOne.NdefCodec
import StarkOne.IrText
import StarkOne.StorageRead
import StarkOne.IrListen
import StarkOne.IrLoad
import StarkOne.NumberedNames
import StarkOne.NfcDumpText
import StarkOne.CaptureSave
import StarkOne.IrSymbols
